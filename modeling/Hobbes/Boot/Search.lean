import Hobbes.Boot.Arrays
import Mathlib.Order.Defs.LinearOrder
import Mathlib.Order.MinMax

/-!
# Search by bisection

An array is searched from an index on, in a number of its elements. The search for the end of a range counts the
elements before its beginning twice.
-/

namespace Hobbes.Boot

open Core

variable {α β κ : Type*} [LinearOrder κ]

/-- The array is given by what is read at an index. -/
def lowerBoundFi (vs : ℕ → Option α) (vtx : α → κ) (x : κ) (i c : ℕ) : Option ℕ :=
  if c ≤ 0 then some i
  else
    let s := c / 2
    let ii := i + s
    (vs ii).bind fun v =>
      if vtx v < x then lowerBoundFi vs vtx x (ii + 1) (c - (s + 1)) else lowerBoundFi vs vtx x i s
termination_by c

def sortedSubRange (p : α → κ) (b e : κ) (xs : List α) : Option (List α) :=
  (lowerBoundFi (fun i => xs[i]?) p b 0 xs.length).bind fun bi =>
    (lowerBoundFi (fun i => xs[i]?) p e bi xs.length).bind fun ei =>
      if bi = xs.length then some [] else selectRange xs bi ei

def splitAssocl (kvs : List (κ × β)) (k : κ) : Option (List (κ × β) × List (κ × β)) :=
  (lowerBoundFi (fun i => kvs[i]?) Prod.fst k 0 kvs.length).bind fun i =>
    (selectRange kvs 0 i).bind fun l => (selectRange kvs i kvs.length).map fun r => (l, r)

def selectAssoclRange (kvs : List (κ × β)) (k0 k1 : κ) : Option (List (κ × β)) :=
  (lowerBoundFi (fun i => kvs[i]?) Prod.fst k0 0 kvs.length).bind fun i =>
    (lowerBoundFi (fun i => kvs[i]?) Prod.fst k1 i (kvs.length - i)).bind fun j => selectRange kvs i j

/-! ### The bisection -/

section Bisection

variable {vs : ℕ → Option α} {vtx : α → κ} {x : κ} {t : ℕ}

/-- From `i` up to `n` the elements can be read, and those before `t` are below `x`. -/
def CutAt (vs : ℕ → Option α) (vtx : α → κ) (x : κ) (i n t : ℕ) : Prop :=
  ∀ k, i ≤ k → k < n → ∃ v, vs k = some v ∧ (vtx v < x ↔ k < t)

lemma lowerBoundFi_of_pos {i c : ℕ} (hc : 0 < c) : lowerBoundFi vs vtx x i c =
    (vs (i + c / 2)).bind fun v =>
      if vtx v < x then lowerBoundFi vs vtx x (i + c / 2 + 1) (c - (c / 2 + 1))
      else lowerBoundFi vs vtx x i (c / 2) := by
  rw [lowerBoundFi, if_neg (by omega)]

/-- The search in `c` elements that are there finds the first one that is not below `x`. -/
lemma lowerBoundFi_eq {i c : ℕ} (h : CutAt vs vtx x i (i + c) t) (hi : i ≤ t) (ht : t ≤ i + c) :
    lowerBoundFi vs vtx x i c = some t := by
  rcases Nat.eq_zero_or_pos c with rfl | hc
  · rw [lowerBoundFi, if_pos le_rfl, le_antisymm hi ht]
  · obtain ⟨v, hv, hlt⟩ := h (i + c / 2) (by omega) (by omega)
    rw [lowerBoundFi_of_pos hc, hv, Option.bind_some]
    split_ifs with hvx
    · have hbelow := hlt.mp hvx
      exact lowerBoundFi_eq (fun k hk hkn => h k (by omega) (by omega)) (by omega) (by omega)
    · have habove : ¬ i + c / 2 < t := fun h => hvx (hlt.mpr h)
      exact lowerBoundFi_eq (fun k hk hkn => h k hk (by omega)) hi (by omega)
termination_by c

/-- A search whose count goes past the end `n` of the array reads behind it, unless it comes first to an element that
is not below `x`. The indices it reads up to there are `i + c - (c + 1) / 2 ^ j`. -/
lemma lowerBoundFi_past {i c n : ℕ} (h : CutAt vs vtx x i n t) (hend : ∀ k, n ≤ k → vs k = none) (hi : i ≤ t)
    (ht : t ≤ n) (hn : n < i + c) :
    ((∃ j, t + (c + 1) / 2 ^ (j + 1) ≤ i + c ∧ i + c < n + (c + 1) / 2 ^ (j + 1)) →
        lowerBoundFi vs vtx x i c = some t) ∧
      ((¬ ∃ j, t + (c + 1) / 2 ^ (j + 1) ≤ i + c ∧ i + c < n + (c + 1) / 2 ^ (j + 1)) →
        lowerBoundFi vs vtx x i c = none) := by
  have hle (j : ℕ) : (c + 1) / 2 ^ (j + 1) ≤ (c + 1) / 2 :=
    Nat.div_le_div_left (Nat.le_self_pow (Nat.succ_ne_zero j) 2) (by omega)
  rw [lowerBoundFi_of_pos (by omega)]
  rcases Nat.lt_or_ge (i + c / 2) n with hlt | hge
  · obtain ⟨v, hv, hiff⟩ := h (i + c / 2) (by omega) hlt
    rw [hv, Option.bind_some]
    by_cases hvt : i + c / 2 < t
    · rw [if_pos (hiff.mpr hvt)]
      -- the next count is one less than half of this one, rounded up
      have hpow (j : ℕ) : (c - (c / 2 + 1) + 1) / 2 ^ (j + 1) = (c + 1) / 2 ^ (j + 1 + 1) := by
        rw [show c - (c / 2 + 1) + 1 = (c + 1) / 2 by omega, Nat.div_div_eq_div_mul, ← Nat.pow_succ']
      have hsum : i + c / 2 + 1 + (c - (c / 2 + 1)) = i + c := by omega
      obtain ⟨hsome, hnone⟩ := @lowerBoundFi_past (i + c / 2 + 1) (c - (c / 2 + 1)) n
        (fun k hk hkn => h k (by omega) hkn) hend hvt ht (by omega)
      simp only [hpow, hsum] at hsome hnone
      constructor
      · rintro ⟨j, hj, hj'⟩
        cases j with
        | zero =>
          rw [Nat.zero_add, Nat.pow_one] at hj
          omega
        | succ j => exact hsome ⟨j, hj, hj'⟩
      · exact fun hno => hnone fun ⟨j, hj⟩ => hno ⟨j + 1, hj⟩
    · rw [if_neg fun hvx => hvt (hiff.mp hvx)]
      refine ⟨fun _ => lowerBoundFi_eq (fun k hk hkn => h k hk (by omega)) hi (by omega), fun hno => ?_⟩
      exact absurd ⟨0, by rw [Nat.zero_add, Nat.pow_one]; omega⟩ hno
  · rw [hend _ hge, Option.bind_none]
    refine ⟨fun ⟨j, _, hj⟩ => ?_, fun _ => rfl⟩
    have := hle j
    omega
termination_by c

end Bisection

/-! ### Sorted arrays -/

section Sorted

variable {p : α → κ} {x : κ} {xs : List α}

def SortedBy (p : α → κ) (xs : List α) : Prop := xs.Pairwise fun a b => p a ≤ p b

/-- The number of elements below `x`. -/
def below (p : α → κ) (x : κ) (xs : List α) : ℕ := xs.countP fun a => p a < x

/-- The elements whose keys are in the range. -/
def keyRange (p : α → κ) (lo hi : κ) (xs : List α) : List α := xs.filter fun a => lo ≤ p a ∧ p a < hi

lemma below_cons_of_lt {a : α} (h : p a < x) (xs : List α) : below p x (a :: xs) = below p x xs + 1 :=
  List.countP_cons_of_pos (decide_eq_true h)

lemma below_eq_zero (h : ∀ a ∈ xs, ¬ p a < x) : below p x xs = 0 := by
  rw [below, List.countP_eq_zero]
  exact fun a ha => by rw [decide_eq_true_iff]; exact h a ha

/-- If the first element is not below `x`, none is. -/
lemma SortedBy.forall_not_lt {a : α} (h : SortedBy p (a :: xs)) (ha : ¬ p a < x) : ∀ b ∈ a :: xs, ¬ p b < x := by
  rw [SortedBy, List.pairwise_cons] at h
  refine List.forall_mem_cons.mpr ⟨ha, fun b hb => not_lt.mpr ((not_lt.mp ha).trans (h.1 b hb))⟩

lemma SortedBy.tail {a : α} (h : SortedBy p (a :: xs)) : SortedBy p xs := (List.pairwise_cons.mp h).2

lemma SortedBy.lt_iff (h : SortedBy p xs) {k : ℕ} {v : α} (hv : xs[k]? = some v) : p v < x ↔ k < below p x xs := by
  induction xs generalizing k with
  | nil => exact absurd hv (by simp)
  | cons a xs ih =>
    by_cases ha : p a < x
    · rw [below_cons_of_lt ha]
      cases k with
      | zero =>
        rw [List.getElem?_cons_zero, Option.some.injEq] at hv
        exact iff_of_true (hv ▸ ha) (Nat.succ_pos _)
      | succ k =>
        rw [ih h.tail hv]
        exact Nat.succ_lt_succ_iff.symm
    · have hnone := h.forall_not_lt ha
      rw [below_eq_zero hnone]
      exact iff_of_false (hnone v (List.mem_of_getElem? hv)) (Nat.not_lt_zero k)

lemma SortedBy.take_below (h : SortedBy p xs) (x : κ) :
    xs.take (below p x xs) = xs.filter fun a => p a < x := by
  induction xs with
  | nil => rfl
  | cons a xs ih =>
    by_cases ha : p a < x
    · rw [below_cons_of_lt ha, List.take_succ_cons, ih h.tail,
        List.filter_cons_of_pos (p := fun a => decide (p a < x)) (decide_eq_true ha)]
    · have hnone := h.forall_not_lt ha
      rw [below_eq_zero hnone, List.take_zero, eq_comm, List.filter_eq_nil_iff]
      exact fun b hb => by rw [decide_eq_true_iff]; exact hnone b hb

lemma SortedBy.drop_below (h : SortedBy p xs) (x : κ) :
    xs.drop (below p x xs) = xs.filter fun a => x ≤ p a := by
  induction xs with
  | nil => rfl
  | cons a xs ih =>
    by_cases ha : p a < x
    · rw [below_cons_of_lt ha, List.drop_succ_cons, ih h.tail,
        List.filter_cons_of_neg (p := fun a => decide (x ≤ p a)) (by rw [decide_eq_true_iff]; exact not_le.mpr ha)]
    · have hnone := h.forall_not_lt ha
      rw [below_eq_zero hnone, List.drop_zero, eq_comm, List.filter_eq_self]
      exact fun b hb => decide_eq_true (not_lt.mp (hnone b hb))

lemma SortedBy.drop (h : SortedBy p xs) (n : ℕ) : SortedBy p (xs.drop n) := h.sublist (List.drop_sublist n xs)

/-- The range lies between the elements below `lo` and those not below `hi`. -/
lemma SortedBy.keyRange_eq (h : SortedBy p xs) (lo hi : κ) : keyRange p lo hi xs =
    (xs.take (below p lo xs + below p hi (xs.drop (below p lo xs)))).drop (below p lo xs) := by
  rw [List.drop_take, Nat.add_sub_cancel_left, (h.drop _).take_below, h.drop_below, List.filter_filter, keyRange]
  congr 1
  funext a
  rw [Bool.and_comm]
  exact Bool.decide_and _ _

lemma below_drop_eq_length (h : SortedBy p xs) (lo hi : κ) :
    below p hi (xs.drop (below p lo xs)) = (keyRange p lo hi xs).length := by
  rw [h.keyRange_eq, List.length_drop, List.length_take]
  have := List.countP_le_length (p := fun a => decide (p a < hi)) (l := xs.drop (below p lo xs))
  rw [List.length_drop] at this
  rw [below]
  omega

lemma below_le_length (p : α → κ) (x : κ) (xs : List α) : below p x xs ≤ xs.length := List.countP_le_length

lemma SortedBy.cutAt (h : SortedBy p xs) (x : κ) (i : ℕ) :
    CutAt (fun k => xs[k]?) p x i xs.length (i + below p x (xs.drop i)) := by
  intro k hik hk
  refine ⟨xs[k], List.getElem?_eq_getElem hk, ?_⟩
  have hget : (xs.drop i)[k - i]? = some xs[k] := by
    rw [List.getElem?_drop, Nat.add_sub_cancel' hik, List.getElem?_eq_getElem hk]
  rw [(h.drop i).lt_iff hget]
  omega

/-- The search in the rest of an array, with the right count. -/
lemma SortedBy.lowerBoundFi_eq (h : SortedBy p xs) (x : κ) {i : ℕ} (hi : i ≤ xs.length) :
    lowerBoundFi (fun k => xs[k]?) p x i (xs.length - i) = some (i + below p x (xs.drop i)) := by
  have hle := below_le_length p x (xs.drop i)
  rw [List.length_drop] at hle
  have hcut := h.cutAt x i
  rw [← Nat.add_sub_cancel' hi] at hcut
  exact Boot.lowerBoundFi_eq hcut (Nat.le_add_right _ _) (by omega)

/-- The search in the whole of an array. -/
lemma SortedBy.lowerBoundFi_zero (h : SortedBy p xs) (x : κ) :
    lowerBoundFi (fun k => xs[k]?) p x 0 xs.length = some (below p x xs) := by
  have hzero := h.lowerBoundFi_eq x (Nat.zero_le _)
  rwa [Nat.sub_zero, Nat.zero_add, List.drop_zero] at hzero

end Sorted

/-! ### Ranges -/

lemma SortedBy.selectRange_eq {p : α → κ} {xs : List α} (h : SortedBy p xs) (lo hi : κ) :
    selectRange xs (below p lo xs) (below p lo xs + below p hi (xs.drop (below p lo xs)) : ℕ) =
      some (keyRange p lo hi xs) := by
  rw [Boot.selectRange_eq, h.keyRange_eq]

lemma selectAssoclRange_eq {kvs : List (κ × β)} (h : SortedBy Prod.fst kvs) (k0 k1 : κ) :
    selectAssoclRange kvs k0 k1 = some (keyRange Prod.fst k0 k1 kvs) := by
  rw [selectAssoclRange, h.lowerBoundFi_zero, Option.bind_some, h.lowerBoundFi_eq k1 (below_le_length _ _ _),
    Option.bind_some, h.selectRange_eq]

lemma splitAssocl_eq {kvs : List (κ × β)} (h : SortedBy Prod.fst kvs) (k : κ) :
    splitAssocl kvs k = some (kvs.take (below Prod.fst k kvs), kvs.drop (below Prod.fst k kvs)) := by
  have hleft : selectRange kvs 0 (below Prod.fst k kvs) = some (kvs.take (below Prod.fst k kvs)) :=
    selectRange_eq kvs 0 (below Prod.fst k kvs)
  have hright := selectRange_eq kvs (below Prod.fst k kvs) kvs.length
  rw [List.take_length] at hright
  rw [splitAssocl, h.lowerBoundFi_zero, Option.bind_some, hleft, Option.bind_some, hright, Option.map_some]

/-- The second search of `sortedSubRange`. -/
lemma sortedSubRange_eq_iff {p : α → κ} {xs : List α} (h : SortedBy p xs) (lo hi : κ) :
    sortedSubRange p lo hi xs = some (keyRange p lo hi xs) ↔
      below p lo xs = 0 ∨ ∃ j, below p lo xs < (xs.length + 1) / 2 ^ (j + 1) ∧
        (keyRange p lo hi xs).length + (xs.length + 1) / 2 ^ (j + 1) ≤ xs.length := by
  have hlo := below_le_length p lo xs
  have hlen := below_drop_eq_length h lo hi
  have hcut := h.cutAt hi (below p lo xs)
  have hle := below_le_length p hi (xs.drop (below p lo xs))
  rw [List.length_drop] at hle
  rw [sortedSubRange, h.lowerBoundFi_zero, Option.bind_some]
  rcases Nat.eq_zero_or_pos (below p lo xs) with hzero | hpos
  · have hsecond := h.lowerBoundFi_eq hi (Nat.zero_le xs.length)
    have hrange := h.selectRange_eq lo hi
    rw [Nat.sub_zero] at hsecond
    rw [hzero] at hrange ⊢
    rw [hsecond, Option.bind_some]
    refine iff_of_true ?_ (.inl rfl)
    split_ifs with hnil
    · rw [List.length_eq_zero_iff.mp hnil.symm]
      rfl
    · exact hrange
  · obtain ⟨hsome, hnone⟩ := lowerBoundFi_past hcut (fun k hk => List.getElem?_eq_none hk) (Nat.le_add_right _ _)
      (by omega) (show xs.length < below p lo xs + xs.length by omega)
    rw [← hlen, or_iff_right hpos.ne']
    have hiff : (∃ j, below p lo xs + below p hi (xs.drop (below p lo xs)) + (xs.length + 1) / 2 ^ (j + 1) ≤
          below p lo xs + xs.length ∧ below p lo xs + xs.length < xs.length + (xs.length + 1) / 2 ^ (j + 1)) ↔
        ∃ j, below p lo xs < (xs.length + 1) / 2 ^ (j + 1) ∧
          below p hi (xs.drop (below p lo xs)) + (xs.length + 1) / 2 ^ (j + 1) ≤ xs.length :=
      exists_congr fun j => by omega
    rw [hiff] at hsome hnone
    by_cases hfit : ∃ j, below p lo xs < (xs.length + 1) / 2 ^ (j + 1) ∧
        below p hi (xs.drop (below p lo xs)) + (xs.length + 1) / 2 ^ (j + 1) ≤ xs.length
    · have hne : below p lo xs ≠ xs.length := by
        obtain ⟨j, hj, _⟩ := hfit
        have hhalf : (xs.length + 1) / 2 ^ (j + 1) ≤ (xs.length + 1) / 2 :=
          Nat.div_le_div_left (Nat.le_self_pow (Nat.succ_ne_zero j) 2) (by omega)
        omega
      rw [hsome hfit, Option.bind_some, if_neg hne]
      exact iff_of_true (h.selectRange_eq lo hi) hfit
    · rw [hnone hfit, Option.bind_none]
      exact iff_of_false (fun h => nomatch h) hfit

/-- The elements with a key in the range, from arrays that are sorted by their keys. The second search of
`sortedSubRange` starts where the first one ended, and stays in bounds only where the first one ended at the beginning,
or where it comes to an element behind the range before it leaves the array. -/
theorem sortedSubRange_iff {p : α → κ} {xs : List α} (hxs : SortedBy p xs) {kvs : List (κ × β)}
    (hkvs : SortedBy Prod.fst kvs) (lo hi : κ) :
    (sortedSubRange p lo hi xs = some (keyRange p lo hi xs) ↔
      below p lo xs = 0 ∨ ∃ j, below p lo xs < (xs.length + 1) / 2 ^ (j + 1) ∧
        (keyRange p lo hi xs).length + (xs.length + 1) / 2 ^ (j + 1) ≤ xs.length) ∧
    keyRange p lo hi xs <:+: xs ∧
    selectAssoclRange kvs lo hi = some (keyRange Prod.fst lo hi kvs) ∧
    ∃ l r, splitAssocl kvs lo = some (l, r) ∧ l ++ r = kvs ∧ (∀ kv ∈ l, kv.1 < lo) ∧ ∀ kv ∈ r, lo ≤ kv.1 := by
  refine ⟨sortedSubRange_eq_iff hxs lo hi, ?_, selectAssoclRange_eq hkvs lo hi, _, _, splitAssocl_eq hkvs lo,
    List.take_append_drop _ kvs, ?_, ?_⟩
  · rw [hxs.keyRange_eq]
    exact (List.drop_suffix _ _).isInfix.trans (List.take_prefix _ _).isInfix
  · rw [hkvs.take_below]
    exact fun kv hkv => of_decide_eq_true (List.mem_filter.mp hkv).2
  · rw [hkvs.drop_below]
    exact fun kv hkv => of_decide_eq_true (List.mem_filter.mp hkv).2

theorem sortedSubRange_iff_small : SortedBy id [1, 2, 3, 4] ∧ SortedBy (κ := ℕ) Prod.fst [(1, true), (2, false)] ∧
    (sortedSubRange id 2 3 [1, 2, 3, 4] = some (keyRange id 2 3 [1, 2, 3, 4]) ↔
      below id 2 [1, 2, 3, 4] = 0 ∨ ∃ j, below id 2 [1, 2, 3, 4] < ([1, 2, 3, 4].length + 1) / 2 ^ (j + 1) ∧
        (keyRange id 2 3 [1, 2, 3, 4]).length + ([1, 2, 3, 4].length + 1) / 2 ^ (j + 1) ≤ [1, 2, 3, 4].length) := by
  have hxs : SortedBy id [1, 2, 3, 4] := by simp [SortedBy]
  have hkvs : SortedBy (κ := ℕ) Prod.fst [(1, true), (2, false)] := by simp [SortedBy]
  exact ⟨hxs, hkvs, (sortedSubRange_iff hxs hkvs 2 3).1⟩

/-- The second search starts at index 1 and reads at index 2 first. -/
theorem not_sortedSubRange :
    ¬ (SortedBy id [1, 2] → sortedSubRange id 2 3 [1, 2] = some (keyRange id 2 3 [1, 2])) := by
  have hxs : SortedBy id [1, 2] := by simp [SortedBy]
  have hnone : sortedSubRange id 2 3 [1, 2] = none := by decide +kernel
  exact fun h => nomatch hnone.symm.trans (h hxs)

end Hobbes.Boot
