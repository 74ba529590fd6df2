import Mathlib.Algebra.Order.Group.Nat
import Mathlib.Data.List.Basic
import Mathlib.Tactic.Common

/-!
# Arrays

Reads and writes that are out of bounds have no result. An array is allocated before its elements are written, and a
read of an element that has not been written has no result either.
-/

namespace Core

variable {α β : Type*}

/-- Write an element of an array. -/
def put (xs : List α) (i : ℕ) (x : α) : Option (List α) := if i < xs.length then some (xs.set i x) else none

lemma put_of_lt {xs : List α} {i : ℕ} (h : i < xs.length) (x : α) : put xs i x = some (xs.set i x) := if_pos h

/-- An array, with no value where nothing has been written yet. -/
abbrev Slots (α : Type*) := List (Option α)

namespace Slots

def alloc (n : ℕ) : Slots α := List.replicate n none

def read (r : Slots α) (i : ℕ) : Option α := r[i]?.join

def write (r : Slots α) (i : ℕ) (x : α) : Option (Slots α) := put r i (some x)

/-- The elements, if all have been written. -/
def elems : Slots α → Option (List α)
  | [] => some []
  | x :: r => x.bind fun x => (elems r).map fun xs => x :: xs

/-- The loop `r[k] <- f(i)` for `i` from here up to `e`. From above `e` it does not end. -/
def fill (f : ℕ → Option α) (r : Slots α) (k i e : ℕ) : Option (Slots α) :=
  if i = e then some r
  else if e < i then none
  else (f i).bind fun x => (r.write k x).bind fun r => fill f r (k + 1) (i + 1) e
termination_by e - i

/-! ### Arrays that are filled from the front -/

/-- `xs` has been written, and there is room for `k` elements. -/
def filledTo (xs : List α) (k : ℕ) : Slots α := xs.map some ++ List.replicate k none

@[simp] lemma length_filledTo (xs : List α) (k : ℕ) : (filledTo xs k).length = xs.length + k := by
  simp [filledTo]

lemma alloc_eq (n : ℕ) : (alloc n : Slots α) = filledTo [] n := rfl

lemma elems_map (xs : List α) : elems (xs.map some) = some xs := by
  induction xs with
  | nil => rfl
  | cons x xs ih =>
    rw [List.map_cons, elems, ih]
    rfl

@[simp] lemma elems_filledTo (xs : List α) : elems (filledTo xs 0) = some xs := by
  rw [filledTo, List.replicate_zero, List.append_nil, elems_map]

lemma read_filledTo (xs : List α) (k i : ℕ) : read (filledTo xs k) i = xs[i]? := by
  rw [read, filledTo, List.getElem?_append, List.length_map]
  split_ifs with h
  · rw [List.getElem?_map, List.getElem?_eq_getElem h]
    rfl
  · rw [List.getElem?_replicate, List.getElem?_eq_none (not_lt.mp h)]
    split_ifs <;> rfl

lemma write_filledTo (xs : List α) (k : ℕ) (x : α) :
    write (filledTo xs (k + 1)) xs.length x = some (filledTo (xs ++ [x]) k) := by
  rw [write, put_of_lt (by simp), filledTo, List.set_append_right _ _ (by simp), List.length_map, Nat.sub_self]
  simp [filledTo, List.replicate_succ]

lemma write_filledTo_of_lt {xs : List α} {i : ℕ} (h : i < xs.length) (k : ℕ) (x : α) :
    write (filledTo xs k) i x = some (filledTo (xs.set i x) k) := by
  rw [write, put_of_lt (by rw [length_filledTo]; omega), filledTo, List.set_append_left _ _ (by rwa [List.length_map]),
    filledTo, List.map_set]

/-- Elements are added behind those that have been written. -/
lemma fill_filledTo {f : ℕ → Option α} {xs ys : List α} {k i e j : ℕ} (hj : j = xs.length) (he : e = i + ys.length)
    (h : ∀ (n : ℕ) y, ys[n]? = some y → f (i + n) = some y) :
    fill f (filledTo xs (ys.length + k)) j i e = some (filledTo (xs ++ ys) k) := by
  subst hj
  induction ys generalizing xs i with
  | nil => rw [fill, if_pos (show i = e from he.symm), List.length_nil, Nat.zero_add, List.append_nil]
  | cons y ys ih =>
    have hlen : (y :: ys).length + k = ys.length + k + 1 := by
      rw [List.length_cons]
      omega
    rw [List.length_cons] at he
    have hstep := @ih (xs ++ [y]) (i + 1) (by omega) fun n z hz => by
      rw [Nat.add_assoc, Nat.add_comm 1 n]
      exact h (n + 1) z hz
    have hy : f i = some y := h 0 y rfl
    rw [fill, if_neg (by omega), if_neg (by omega), hy, hlen]
    simp only [Option.bind_some, write_filledTo]
    rw [List.length_append, List.length_singleton] at hstep
    rw [hstep, List.append_assoc, List.singleton_append]

/-- An array is filled completely. -/
lemma fill_alloc {f : ℕ → Option α} {ys : List α} {i e : ℕ} (he : e = i + ys.length)
    (h : ∀ (n : ℕ) y, ys[n]? = some y → f (i + n) = some y) :
    (fill f (alloc ys.length) 0 i e).bind elems = some ys := by
  have hfill : fill f (filledTo [] (ys.length + 0)) 0 i e = some (filledTo ([] ++ ys) 0) := fill_filledTo rfl he h
  rw [Nat.add_zero, List.nil_append] at hfill
  rw [alloc_eq, hfill, Option.bind_some, elems_filledTo]

end Slots

end Core
