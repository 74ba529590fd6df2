import Mathlib.Data.List.Basic
import Mathlib.Tactic.Common

/-!
# Programs that make calls

A program makes calls of another component, each answered by a boolean, before it returns. Most
programs make a list of calls in order and give up at the first one that fails: `Calls.each` is
closed under sequencing, so that what a program does is known from the list.
-/

namespace Core

universe u

/-- A program that makes calls in `κ`; it is `stuck` where it has no meaning. -/
inductive Calls (κ : Type u) (α : Type u) where
  | ret (a : α)
  | stuck
  | call (c : κ) (k : Bool → Calls κ α)

namespace Calls

variable {κ α β : Type u}

protected def bind : Calls κ α → (α → Calls κ β) → Calls κ β
  | ret a, f => f a
  | stuck, _ => stuck
  | call c k, f => call c fun ok => (k ok).bind f

instance : Monad (Calls κ) where
  pure := ret
  bind := Calls.bind

@[simp] lemma ret_bind (a : α) (f : α → Calls κ β) : ret a >>= f = f a := rfl

@[simp] lemma call_bind (c : κ) (k : Bool → Calls κ α) (f : α → Calls κ β) :
    call c k >>= f = call c fun ok => k ok >>= f := rfl

@[simp] lemma pure_eq_ret (a : α) : (pure a : Calls κ α) = ret a := rfl

/-- Make the calls in order and return `a`, or `b` as soon as one of them fails. -/
def each (a b : α) : List κ → Calls κ α
  | [] => ret a
  | c :: cs => call c fun ok => if ok then each a b cs else ret b

@[simp] lemma each_nil (a b : α) : (each a b [] : Calls κ α) = ret a := rfl

lemma each_cons (a b : α) (c : κ) (cs : List κ) :
    each a b (c :: cs) = call c fun ok => if ok then each a b cs else ret b := rfl

lemma each_bind {a b : α} {a' b' : β} {f : α → Calls κ β} (cs : List κ) {ds : List κ}
    (ha : f a = each a' b' ds) (hb : f b = ret b') :
    each a b cs >>= f = each a' b' (cs ++ ds) := by
  induction cs with
  | nil => simpa using ha
  | cons c cs ih =>
    simp only [each_cons, call_bind, List.cons_append]
    congr 1
    funext ok
    cases ok
    · simp [hb]
    · simpa using ih

lemma each_bind_ret {a b : α} {a' b' : β} {f : α → Calls κ β} (cs : List κ)
    (ha : f a = ret a') (hb : f b = ret b') : each a b cs >>= f = each a' b' cs := by
  have h : each a b cs >>= f = each a' b' (cs ++ []) := each_bind cs ha hb
  rwa [List.append_nil] at h

/-- `p.Runs tr a`: the program makes the calls of `tr`, each with the answer beside it, and
returns `a`. -/
inductive Runs : Calls κ α → List (κ × Bool) → α → Prop where
  | ret (a : α) : Runs (ret a) [] a
  | call {c : κ} {k : Bool → Calls κ α} (ok : Bool) {tr : List (κ × Bool)} {a : α}
      (h : Runs (k ok) tr a) : Runs (call c k) ((c, ok) :: tr) a

/-- A run that does not give up has made all the calls. -/
lemma runs_each {a b x : α} {cs : List κ} {tr : List (κ × Bool)} (h : Runs (each a b cs) tr x)
    (hx : x ≠ b) : x = a ∧ tr = cs.map (·, true) := by
  induction cs generalizing tr with
  | nil =>
    cases h
    exact ⟨rfl, rfl⟩
  | cons c cs ih =>
    cases h with
    | call ok h =>
      cases ok with
      | false =>
        cases h
        exact absurd rfl hx
      | true =>
        obtain ⟨hxa, rfl⟩ := ih h
        exact ⟨hxa, rfl⟩

end Calls

end Core
