import Mathlib.Algebra.Group.Nat.Defs
import Mathlib.Data.List.Forall2
import Mathlib.Tactic.Common

/-!
# Binary readers

A reader takes values from a buffer at a position that is kept modulo `m`. `Reads r bs x` says
that `r` turns the bytes `bs` into `x`, wherever they stand, and `ReadsOnly r bs Q` that whatever
`r` makes of them satisfies `Q`. Both have a rule for each way of combining readers.
-/

namespace Core

abbrev Bytes := List UInt8

/-! ### Little-endian numbers -/

def leBytes : ℕ → ℕ → Bytes
  | 0, _ => []
  | k + 1, x => UInt8.ofNat x :: leBytes k (x / 256)

def leNat : Bytes → ℕ
  | [] => 0
  | b :: bs => b.toNat + 256 * leNat bs

@[simp] lemma leBytes_length (k x : ℕ) : (leBytes k x).length = k := by
  induction k generalizing x with
  | zero => rfl
  | succ k ih => simp [leBytes, ih]

lemma leNat_leBytes (k x : ℕ) : leNat (leBytes k x) = x % 256 ^ k := by
  induction k generalizing x with
  | zero => simp [leBytes, leNat, Nat.mod_one]
  | succ k ih =>
    have hbyte : (UInt8.ofNat x).toNat = x % 256 := UInt8.toNat_ofNat'
    rw [leBytes, leNat, ih, hbyte, Nat.pow_succ, Nat.mul_comm (256 ^ k), Nat.mod_mul]

lemma leBytes_leNat (bs : Bytes) : leBytes bs.length (leNat bs) = bs := by
  induction bs with
  | nil => rfl
  | cons b bs ih =>
    have hb : b.toNat < 256 := b.toNat_lt
    have hbyte : UInt8.ofNat (b.toNat + 256 * leNat bs) = b := by
      rw [← UInt8.toNat_inj, UInt8.toNat_ofNat']
      omega
    have hdiv : (b.toNat + 256 * leNat bs) / 256 = leNat bs := by omega
    rw [List.length_cons, leNat, leBytes, hbyte, hdiv, ih]

lemma leNat_lt (bs : Bytes) : leNat bs < 256 ^ bs.length := by
  have h := leNat_leBytes bs.length (leNat bs)
  rw [leBytes_leNat] at h
  rw [h]
  exact Nat.mod_lt _ (Nat.pow_pos (by decide))

/-! ### Readers -/

/-- A reader of a buffer, at a position that is kept modulo `m`. -/
def Reader (m : ℕ) (α : Type*) := Bytes → Fin m → Option (α × Fin m)

namespace Reader

variable {m : ℕ} {α β : Type}

instance : Monad (Reader m) where
  pure x := fun _ n => some (x, n)
  bind r k := fun bs n => (r bs n).bind fun p => k p.1 bs p.2

/-- The reader that throws. -/
def fail : Reader m α := fun _ _ => none

/-- Take the next `k` bytes. Reading past the end of the buffer has no result. -/
def take (k : ℕ) : Reader m Bytes := fun bs n =>
  if n + k ≤ bs.length then
    some ((bs.drop n).take k, ⟨(n + k) % m, Nat.mod_lt _ n.pos⟩)
  else none

/-- A number of `k` bytes. -/
def number (k : ℕ) : Reader m ℕ := do
  let bs ← take k
  return leNat bs

/-- As many bytes as the number in the first `k` says. -/
def counted (k : ℕ) : Reader m Bytes := do
  let sz ← number k
  take sz

/-- Read a number of values. -/
def replicate : ℕ → Reader m α → Reader m (List α)
  | 0, _ => pure []
  | k + 1, r => do
    let x ← r
    let xs ← replicate k r
    return x :: xs

/-- Go on if there is a result. -/
def ofOption (x : Option α) : Reader m α := fun _ n => x.map (·, n)

/-- Where `bs` stands in the buffer, the reader takes exactly `bs` and returns `x`. -/
def Reads (r : Reader m α) (bs : Bytes) (x : α) : Prop :=
  ∀ (pre post : Bytes) (n n' : Fin m), n.val = pre.length → n'.val = pre.length + bs.length →
    r (pre ++ bs ++ post) n = some (x, n')

/-- Where `bs` stands in the buffer, a result of the reader comes with the position behind `bs`
and satisfies `Q`. -/
def ReadsOnly (r : Reader m α) (bs : Bytes) (Q : α → Prop) : Prop :=
  ∀ (pre post : Bytes) (n n' : Fin m) (x : α), n.val = pre.length →
    pre.length + bs.length < m → r (pre ++ bs ++ post) n = some (x, n') →
      n'.val = pre.length + bs.length ∧ Q x

variable {r : Reader m α} {k : α → Reader m β} {bs bs' : Bytes} {x : α} {y : β}
  {Q : α → Prop} {Q' : β → Prop}

lemma pure_apply (bs : Bytes) (n : Fin m) : (pure x : Reader m α) bs n = some (x, n) := rfl

lemma bind_apply (bs : Bytes) (n : Fin m) :
    (r >>= k) bs n = (r bs n).bind fun p => k p.1 bs p.2 := rfl

/-! ### Total rules -/

lemma Reads.pure (x : α) : Reads (pure x : Reader m α) [] x := by
  intro pre post n n' hn hn'
  have heq : n = n' := Fin.ext (hn.trans hn'.symm)
  rw [pure_apply, heq]

lemma Reads.bind (h : Reads r bs x) (h' : Reads (k x) bs' y) : Reads (r >>= k) (bs ++ bs') y := by
  intro pre post n n' hn hn'
  rw [List.length_append] at hn'
  have hlt := n'.isLt
  have h₁ := h pre (bs' ++ post) n ⟨pre.length + bs.length, by omega⟩ hn rfl
  have h₂ := h' (pre ++ bs) post ⟨pre.length + bs.length, by omega⟩ n'
    List.length_append.symm (by rw [List.length_append]; omega)
  simp only [List.append_assoc] at h₁ h₂ ⊢
  rw [bind_apply, h₁]
  exact h₂

/-- The bytes may be assumed to fit below the modulus. -/
lemma Reads.of_lt (h : bs.length < m → Reads r bs x) : Reads r bs x :=
  fun pre post n n' hn hn' => h (by have := n'.isLt; omega) pre post n n' hn hn'

lemma Reads.take (bs : Bytes) : Reads (take bs.length : Reader m Bytes) bs bs := by
  intro pre post n n' hn hn'
  have hlt := n'.isLt
  rw [hn'] at hlt
  simp only [Reader.take, hn, List.length_append, List.append_assoc, List.drop_left,
    List.take_left]
  rw [if_pos (by omega), Option.some.injEq, Prod.mk.injEq]
  exact ⟨rfl, Fin.ext ((Nat.mod_eq_of_lt hlt).trans hn'.symm)⟩

lemma Reads.map (h : Reads r bs x) (f : α → β) : Reads (do let x ← r; return f x) bs (f x) := by
  have := h.bind (k := fun x => Pure.pure (f x)) (Reads.pure (f x))
  rwa [List.append_nil] at this

lemma Reads.number {k n : ℕ} (hn : n < 256 ^ k) :
    Reads (number k : Reader m ℕ) (leBytes k n) n := by
  have h := (Reads.take (m := m) (leBytes k n)).map leNat
  rwa [leNat_leBytes, leBytes_length, Nat.mod_eq_of_lt hn] at h

lemma Reads.counted {k : ℕ} (hbs : bs.length < 256 ^ k) :
    Reads (counted k : Reader m Bytes) (leBytes k bs.length ++ bs) bs :=
  (Reads.number hbs).bind (Reads.take bs)

lemma Reads.ofOption {o : Option α} (h : o = some x) : Reads (ofOption o : Reader m α) [] x := by
  intro pre post n n' hn hn'
  have heq : n = n' := Fin.ext (hn.trans hn'.symm)
  simp [Reader.ofOption, h, heq]

lemma Reads.replicate {f : β → Bytes} {g : β → α} {xs : List β}
    (h : ∀ x ∈ xs, Reads r (f x) (g x)) :
    Reads (replicate xs.length r) (xs.flatMap f) (xs.map g) := by
  induction xs with
  | nil => exact Reads.pure _
  | cons x xs ih =>
    have hx := h x List.mem_cons_self
    have hxs := ih fun y hy => h y (List.mem_cons_of_mem _ hy)
    exact hx.bind (hxs.map _)

/-! ### Partial rules -/

lemma Reads.readsOnly (h : Reads r bs x) : ReadsOnly r bs (· = x) := by
  intro pre post n n' y hn hlt hr
  rw [h pre post n ⟨pre.length + bs.length, hlt⟩ hn rfl, Option.some.injEq, Prod.mk.injEq] at hr
  exact ⟨by rw [← hr.2], hr.1.symm⟩

lemma ReadsOnly.fail : ReadsOnly (fail : Reader m α) bs Q := by
  intro pre post n n' x hn hlt hr
  cases hr

lemma ReadsOnly.pure (h : Q x) : ReadsOnly (pure x : Reader m α) [] Q := by
  intro pre post n n' y hn hlt hr
  obtain ⟨hn', rfl⟩ := (Reads.pure x).readsOnly pre post n n' y hn hlt hr
  exact ⟨hn', h⟩

lemma ReadsOnly.bind (h : ReadsOnly r bs Q) (h' : ∀ x, Q x → ReadsOnly (k x) bs' Q') :
    ReadsOnly (r >>= k) (bs ++ bs') Q' := by
  intro pre post n n' y hn hlt hr
  rw [List.length_append] at hlt ⊢
  rw [bind_apply, Option.bind_eq_some_iff] at hr
  obtain ⟨⟨x, n₁⟩, hr, hk⟩ := hr
  simp only [List.append_assoc] at hr hk
  obtain ⟨hn₁, hx⟩ := h pre (bs' ++ post) n n₁ x hn (by omega) (by rwa [List.append_assoc])
  have hk' := h' x hx (pre ++ bs) post n₁ n' y (by rwa [List.length_append])
    (by rw [List.length_append]; omega) (by simpa only [List.append_assoc] using hk)
  rwa [List.length_append, Nat.add_assoc] at hk'

lemma ReadsOnly.of_lt (h : bs.length < m → ReadsOnly r bs Q) : ReadsOnly r bs Q :=
  fun pre post n n' x hn hlt => h (by omega) pre post n n' x hn hlt

lemma ReadsOnly.mono (h : ReadsOnly r bs Q) {Q' : α → Prop} (hQ : ∀ x, Q x → Q' x) :
    ReadsOnly r bs Q' :=
  fun pre post n n' x hn hlt hr => (h pre post n n' x hn hlt hr).imp_right (hQ x)

lemma ReadsOnly.map (h : ReadsOnly r bs Q) {f : α → β} (hf : ∀ x, Q x → Q' (f x)) :
    ReadsOnly (do let x ← r; return f x) bs Q' := by
  have := h.bind (k := fun x => Pure.pure (f x)) fun x hx => ReadsOnly.pure (hf x hx)
  rwa [List.append_nil] at this

lemma ReadsOnly.ofOption {o : Option α} (h : ∀ x, o = some x → Q x) :
    ReadsOnly (ofOption o : Reader m α) [] Q := by
  intro pre post n n' x hn hlt hr
  simp only [Reader.ofOption, Option.map_eq_some_iff, Prod.mk.injEq] at hr
  obtain ⟨y, hy, rfl, rfl⟩ := hr
  exact ⟨hn, h y hy⟩

lemma ReadsOnly.replicate {f : β → Bytes} {R : β → α → Prop} {xs : List β}
    (h : ∀ x ∈ xs, ReadsOnly r (f x) (R x)) :
    ReadsOnly (replicate xs.length r) (xs.flatMap f) (List.Forall₂ R xs) := by
  induction xs with
  | nil => exact ReadsOnly.pure .nil
  | cons x xs ih =>
    have hx := h x List.mem_cons_self
    have hxs := ih fun y hy => h y (List.mem_cons_of_mem _ hy)
    exact hx.bind fun y hy => hxs.map fun ys hys => .cons hy hys

end Reader

end Core
