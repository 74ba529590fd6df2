import Hobbes.Core.Codec

/-!
# Streams

A stream is read from its front. `Decodes r p bs x` says that `r` turns the bytes `bs` at the front
of any stream into `x` if `p` holds, and that it throws there otherwise. There is a rule for each way
of combining readers, which combines the conditions as well.
-/

namespace Core

/-- A reader of a stream, which has no result when it throws. -/
abbrev Stream := StateT Bytes Option

namespace Stream

variable {α β γ : Type}

/-- Read `k` bytes. What is not there any more is read as 0. -/
def read (k : ℕ) : Stream Bytes := fun bs =>
  some (bs.take k ++ List.replicate (k - bs.length) 0, bs.drop k)

/-- Receive `k` bytes, which throws when the other end has closed the stream before. -/
def recv (k : ℕ) : Stream Bytes := fun bs =>
  if k ≤ bs.length then some (bs.take k, bs.drop k) else none

def fail : Stream α := fun _ => none

def ofOption (o : Option α) : Stream α := fun bs => o.map (·, bs)

/-- A number of `k` bytes, where `take` takes bytes from the front. -/
def number (take : ℕ → Stream Bytes) (k : ℕ) : Stream ℕ := do
  let bs ← take k
  return leNat bs

/-- As many bytes as the number in the first `k` says. -/
def counted (take : ℕ → Stream Bytes) (k : ℕ) : Stream Bytes := do
  let n ← number take k
  take n

/-- Read a number of values. -/
def replicate : ℕ → Stream α → Stream (List α)
  | 0, _ => pure []
  | k + 1, r => do
    let x ← r
    let xs ← replicate k r
    return x :: xs

/-- `r` takes exactly `bs` and returns `x` if `p` holds, and throws otherwise. -/
def Decodes (r : Stream α) (p : Prop) (bs : Bytes) (x : α) : Prop :=
  ∀ rest, (p → r (bs ++ rest) = some (x, rest)) ∧ (¬ p → r (bs ++ rest) = none)

/-- `r` turns `bs` into `x` and leaves `bs'` there. -/
def Leaves (r : Stream α) (bs : Bytes) (x : α) (bs' : Bytes) : Prop :=
  ∀ rest, r (bs ++ rest) = some (x, bs' ++ rest)

/-- What follows the bytes that `r` takes makes no difference. -/
def Local (r : Stream α) : Prop :=
  ∀ bs x rest more, r bs = some (x, rest) → r (bs ++ more) = some (x, rest ++ more)

variable {r : Stream α} {k : α → Stream β} {p q : Prop} {bs bs' : Bytes} {x : α} {y : β}

lemma pure_apply (x : α) (bs : Bytes) : (pure x : Stream α) bs = some (x, bs) := rfl

lemma bind_apply (r : Stream α) (k : α → Stream β) (bs : Bytes) :
    (r >>= k) bs = (r bs).bind fun y => k y.1 y.2 := rfl

lemma read_append (bs rest : Bytes) : read bs.length (bs ++ rest) = some (bs, rest) := by
  simp [read]

lemma recv_append (bs rest : Bytes) : recv bs.length (bs ++ rest) = some (bs, rest) := by
  simp [recv]

namespace Decodes

lemma congr (h : Decodes r p bs x) (hpq : p ↔ q) : Decodes r q bs x :=
  fun rest => ⟨fun hq => (h rest).1 (hpq.mpr hq), fun hq => (h rest).2 fun hp => hq (hpq.mp hp)⟩

lemma of_eq (h : ∀ rest, r (bs ++ rest) = some (x, rest)) : Decodes r True bs x :=
  fun rest => ⟨fun _ => h rest, fun hp => absurd trivial hp⟩

lemma fail (bs : Bytes) (x : α) : Decodes (fail : Stream α) False bs x :=
  fun _ => ⟨False.elim, fun _ => rfl⟩

lemma pure (x : α) : Decodes (pure x : Stream α) True [] x := of_eq fun _ => rfl

lemma bind (h : Decodes r p bs x) (h' : Decodes (k x) q bs' y) :
    Decodes (r >>= k) (p ∧ q) (bs ++ bs') y := by
  intro rest
  rw [List.append_assoc, bind_apply]
  by_cases hp : p
  · rw [(h _).1 hp]
    exact ⟨fun hpq => (h' rest).1 hpq.2, fun hpq => (h' rest).2 fun hq => hpq ⟨hp, hq⟩⟩
  · rw [(h _).2 hp]
    exact ⟨fun hpq => absurd hpq.1 hp, fun _ => rfl⟩

/-- What is read before is not in doubt. -/
lemma bind_true (h : Decodes r True bs x) (h' : Decodes (k x) q bs' y) :
    Decodes (r >>= k) q (bs ++ bs') y :=
  (h.bind h').congr (iff_of_eq (true_and q))

lemma map (h : Decodes r p bs x) (f : α → β) : Decodes (do let x ← r; return f x) p bs (f x) := by
  have := (h.bind (k := fun x => Pure.pure (f x)) (pure (f x))).congr (iff_of_eq (and_true p))
  rwa [List.append_nil] at this

lemma ofOption {o : Option α} (h : o = some x) : Decodes (ofOption o : Stream α) True [] x :=
  of_eq fun rest => by simp [Stream.ofOption, h]

lemma read (bs : Bytes) : Decodes (read bs.length) True bs bs := of_eq (read_append bs)

lemma recv (bs : Bytes) : Decodes (recv bs.length) True bs bs := of_eq (recv_append bs)

lemma number {take : ℕ → Stream Bytes} (htake : ∀ bs, Decodes (take bs.length) True bs bs) {k n : ℕ}
    (hn : n < 256 ^ k) : Decodes (number take k) True (leBytes k n) n := by
  have h := (htake (leBytes k n)).map leNat
  rwa [leNat_leBytes, leBytes_length, Nat.mod_eq_of_lt hn] at h

lemma counted {take : ℕ → Stream Bytes} (htake : ∀ bs, Decodes (take bs.length) True bs bs) {k : ℕ}
    (hbs : bs.length < 256 ^ k) :
    Decodes (counted take k) True (leBytes k bs.length ++ bs) bs :=
  (number htake hbs).bind_true (htake bs)

lemma replicate {f : β → Bytes} {g : β → α} {P : β → Prop} {xs : List β}
    (h : ∀ x ∈ xs, Decodes r (P x) (f x) (g x)) :
    Decodes (replicate xs.length r) (∀ x ∈ xs, P x) (xs.flatMap f) (xs.map g) := by
  induction xs with
  | nil => exact (pure _).congr (by simp)
  | cons x xs ih =>
    have hx := h x List.mem_cons_self
    have hxs := ih fun y hy => h y (List.mem_cons_of_mem _ hy)
    exact (hx.bind (hxs.map _)).congr (by simp)

/-- A reader decodes `bs` as `x` if and only if the condition holds. -/
lemma iff (h : Decodes r p bs x) : (∀ rest, r (bs ++ rest) = some (x, rest)) ↔ p := by
  refine ⟨fun hr => ?_, fun hp rest => (h rest).1 hp⟩
  by_contra hp
  have hsome := hr []
  rw [(h []).2 hp] at hsome
  cases hsome

end Decodes

lemma Decodes.leaves (h : Decodes r True bs x) : Leaves r bs x [] := fun rest => (h rest).1 trivial

namespace Leaves

variable {left : Bytes}

lemma decodes (h : Leaves r bs x []) : Decodes r True bs x := .of_eq h

lemma bind (h : Decodes r True bs x) (h' : Leaves (k x) bs' y left) :
    Leaves (r >>= k) (bs ++ bs') y left := by
  intro rest
  rw [List.append_assoc, bind_apply, (h _).1 trivial]
  exact h' rest

/-- What is left by the first reader is the same behind the second one. -/
lemma bind_of_comm (h : Leaves r bs x left) (h' : Decodes (k x) True bs' y)
    (hcomm : left ++ bs' = bs' ++ left) : Leaves (r >>= k) (bs ++ bs') y left := by
  intro rest
  rw [List.append_assoc, bind_apply, h (bs' ++ rest), ← List.append_assoc, hcomm, List.append_assoc]
  exact (h' (left ++ rest)).1 trivial

lemma map (h : Leaves r bs x left) (f : α → β) : Leaves (do let x ← r; return f x) bs (f x) left := by
  intro rest
  rw [bind_apply, h rest]
  rfl

end Leaves

namespace Local

lemma pure (x : α) : Local (pure x : Stream α) := by
  intro bs y rest more h
  cases h
  rfl

lemma fail : Local (fail : Stream α) := by
  intro bs y rest more h
  cases h

lemma recv (n : ℕ) : Local (recv n) := by
  intro bs y rest more h
  simp only [Stream.recv, Option.ite_none_right_eq_some, Option.some.injEq, Prod.mk.injEq] at h
  obtain ⟨hle, rfl, rfl⟩ := h
  simp only [Stream.recv, List.length_append, Nat.le_add_right_of_le hle, if_true,
    List.take_append_of_le_length hle, List.drop_append_of_le_length hle]

lemma bind (h : Local r) (h' : ∀ x, Local (k x)) : Local (r >>= k) := by
  intro bs y rest more hs
  obtain ⟨⟨x, bs'⟩, hx, hy⟩ := Option.bind_eq_some_iff.mp hs
  rw [bind_apply, h _ _ _ more hx]
  exact h' x _ _ _ more hy

lemma counted (n : ℕ) : Local (counted Stream.recv n) :=
  ((recv n).bind fun _ => pure _).bind fun _ => recv _

/-- What is read from a part of something is what the whole begins with. -/
lemma unique {rest more : Bytes} {x' : α} (h : Local r) (h' : r (bs ++ bs') = some (x, more))
    (hs : r bs = some (x', rest)) : x' = x ∧ rest ++ bs' = more := by
  have heq := (h _ _ _ bs' hs).symm.trans h'
  simpa using heq

end Local

end Stream

end Core
