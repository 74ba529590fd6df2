import Hobbes.Core.Stream
import Mathlib.Data.Char
import Mathlib.Data.List.Lex

/-!
# Segment files

A segment file holds transactions, each behind its size, and its name has the number of the segment in
ten digits, so that names are in the order of the numbers. A file is sent behind its size.
-/

namespace Hobbes.Hog

open Core Stream

/-! ### Names -/

/-- `str::from`, with zeros in front where it is shorter than ten characters. -/
def segidx (seg : ℕ) : List Char :=
  let s := Nat.toDigits 10 seg
  if s.length < 10 then List.replicate (10 - s.length) '0' ++ s else s

def segmentFileName (seg : ℕ) : List Char := "segment-".toList ++ segidx seg ++ ".gz".toList

/-- The last `k` digits of a number. -/
def digits : ℕ → ℕ → List Char
  | 0, _ => []
  | k + 1, n => digits k (n / 10) ++ [(n % 10).digitChar]

@[simp] lemma digits_length (k n : ℕ) : (digits k n).length = k := by
  induction k generalizing n with
  | zero => rfl
  | succ k ih => simp [digits, ih]

lemma digits_zero (k : ℕ) : digits k 0 = List.replicate k '0' := by
  induction k with
  | zero => rfl
  | succ k ih =>
    rw [digits, Nat.zero_div, ih, List.replicate_succ']
    rfl

/-- With zeros in front, a number has as many digits as one likes. -/
lemma replicate_toDigits {k n : ℕ} (hk : 0 < k) (hn : n < 10 ^ k) :
    List.replicate (k - (Nat.toDigits 10 n).length) '0' ++ Nat.toDigits 10 n = digits k n := by
  induction k generalizing n with
  | zero => cases hk
  | succ k ih =>
    by_cases hlt : n < 10
    · have hdiv : n / 10 = 0 := Nat.div_eq_of_lt hlt
      rw [Nat.toDigits_of_lt_base hlt, digits, hdiv, digits_zero, Nat.mod_eq_of_lt hlt]
      rfl
    · have hpos : 0 < k := by
        rcases Nat.eq_zero_or_pos k with rfl | hpos
        · omega
        · exact hpos
      have hquot : n / 10 < 10 ^ k := by
        rw [Nat.pow_succ] at hn
        omega
      rw [Nat.toDigits_of_base_le (by decide) (by omega), digits, ← ih hpos hquot, List.length_append,
        List.length_singleton, Nat.add_sub_add_right, List.append_assoc]

lemma segidx_eq {seg : ℕ} (h : seg < 2 ^ 32) : segidx seg = digits 10 seg := by
  have hlt : seg < 10 ^ 10 := by omega
  have hlen : (Nat.toDigits 10 seg).length ≤ 10 :=
    (Nat.length_toDigits_le_iff (by decide) (by decide)).mpr hlt
  have heq := replicate_toDigits (by decide) hlt
  rw [segidx]
  split_ifs with hshort
  · exact heq
  · obtain hten : (Nat.toDigits 10 seg).length = 10 := by omega
    rw [hten] at heq
    exact heq

/-! ### The order of names -/

lemma append_lt_append {α : Type} [LT α] {xs ys : List α} (h : xs < ys)
    (hlen : xs.length = ys.length) (us vs : List α) : xs ++ us < ys ++ vs := by
  induction xs generalizing ys with
  | nil =>
    rw [List.length_eq_zero_iff.mp hlen.symm] at h
    exact absurd h (List.not_lt_nil [])
  | cons x xs ih =>
    cases ys with
    | nil => cases hlen
    | cons y ys =>
      rw [List.cons_append, List.cons_append, List.cons_lt_cons_iff]
      rcases List.cons_lt_cons_iff.mp h with hxy | ⟨rfl, htail⟩
      · exact .inl hxy
      · exact .inr ⟨rfl, ih htail (Nat.succ.inj hlen)⟩

lemma append_lt_append_left {α : Type} [LT α] (us : List α) {xs ys : List α} (h : xs < ys) :
    us ++ xs < us ++ ys := by
  induction us with
  | nil => exact h
  | cons u us ih => exact List.cons_lt_cons_iff.mpr (.inr ⟨rfl, ih⟩)

lemma digitChar_lt {a b : ℕ} (h : a < b) (hb : b < 10) : a.digitChar < b.digitChar := by
  have hall : ∀ b < 10, ∀ a < b, a.digitChar < b.digitChar := by decide
  exact hall b hb a h

lemma digits_lt {a b k : ℕ} (h : a < b) (hb : b < 10 ^ k) : digits k a < digits k b := by
  induction k generalizing a b with
  | zero => omega
  | succ k ih =>
    rw [Nat.pow_succ] at hb
    by_cases hdiv : a / 10 < b / 10
    · have hquot : digits k (a / 10) < digits k (b / 10) := ih hdiv (by omega)
      exact append_lt_append hquot (by rw [digits_length, digits_length]) _ _
    · have heq : a / 10 = b / 10 := by omega
      have hmod : a % 10 < b % 10 := by omega
      rw [digits, digits, heq]
      refine append_lt_append_left _ (List.cons_lt_cons_iff.mpr (.inl ?_))
      exact digitChar_lt hmod (Nat.mod_lt _ (by decide))

/-- Names are ordered as the numbers are. -/
lemma segmentFileName_lt {a b : ℕ} (h : a < b) (hb : b < 2 ^ 32) :
    segmentFileName a < segmentFileName b := by
  have hten : b < 10 ^ 10 := by omega
  have hdigits : segidx a < segidx b := by
    rw [segidx_eq hb, segidx_eq (Nat.lt_trans h hb)]
    exact digits_lt h hten
  refine append_lt_append (append_lt_append_left _ hdigits) ?_ _ _
  rw [List.length_append, List.length_append, segidx_eq hb, segidx_eq (Nat.lt_trans h hb),
    digits_length, digits_length]

lemma segmentFileName_inj {a b : ℕ} (ha : a < 2 ^ 32) (hb : b < 2 ^ 32)
    (h : segmentFileName a = segmentFileName b) : a = b := by
  rcases Nat.lt_trichotomy a b with hlt | heq | hlt
  · have hname := segmentFileName_lt hlt hb
    rw [h] at hname
    exact absurd hname (List.lt_irrefl _)
  · exact heq
  · have hname := segmentFileName_lt hlt ha
    rw [h] at hname
    exact absurd hname (List.lt_irrefl _)

/-! ### Transactions in a segment -/

/-- What is written for transactions. -/
def writeTxns (txns : List Bytes) : Bytes := txns.flatMap fun d => leBytes 8 d.length ++ d

@[simp] lemma writeTxns_cons (d : Bytes) (txns : List Bytes) :
    writeTxns (d :: txns) = leBytes 8 d.length ++ d ++ writeTxns txns := rfl

lemma writeTxns_append (txns : List Bytes) (d : Bytes) :
    writeTxns (txns ++ [d]) = writeTxns txns ++ (leBytes 8 d.length ++ d) := by
  simp [writeTxns]

/-- A size, and as many bytes, are read from a segment. -/
def readTxn : Stream Bytes := counted recv 8

lemma readTxn_writeTxns {d : Bytes} (hd : d.length < 2 ^ 64) (txns : List Bytes) :
    readTxn (writeTxns (d :: txns)) = some (d, writeTxns txns) :=
  (Decodes.counted Decodes.recv (by simpa using hd) (writeTxns txns)).1 trivial

lemma writeTxns_ne_nil (d : Bytes) (txns : List Bytes) : writeTxns (d :: txns) ≠ [] := by
  intro h
  have hlen := congrArg List.length h
  simp at hlen

/-! ### Files on a connection -/

/-- What `ssend` of a string or `sendFileContents` puts on the connection. -/
def sized (bs : Bytes) : Bytes := leBytes 8 bs.length ++ bs

/-- `srecv` of a string or a buffer, which throws when there is nothing in it. -/
def srecv : Stream Bytes := do
  let bs ← counted recv 8
  if bs = [] then fail else return bs

/-- What is received from the front of something is what was sent there. -/
lemma srecv_of_prefix {wire lost more bs bs' rest : Bytes} (hbs : bs.length < 2 ^ 64)
    (hwire : wire ++ lost = sized bs ++ more) (h : srecv wire = some (bs', rest)) :
    bs' = bs ∧ rest ++ lost = more := by
  have hlocal : Local srecv := (Local.counted 8).bind fun bs => by
    split_ifs
    · exact Local.fail
    · exact Local.pure bs
  have hread : srecv (wire ++ lost) = if bs = [] then none else some (bs, more) := by
    have hcounted : counted recv 8 (wire ++ lost) = some (bs, more) := by
      rw [hwire]
      exact (Decodes.counted Decodes.recv (by simpa using hbs) more).1 trivial
    rw [srecv, bind_apply, hcounted]
    split_ifs <;> simp_all [fail, pure_apply]
  split_ifs at hread with hnil
  · have := hlocal _ _ _ lost h
    rw [hread] at this
    cases this
  · exact hlocal.unique hread h

end Hobbes.Hog
