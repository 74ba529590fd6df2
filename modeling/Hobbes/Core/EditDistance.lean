import Mathlib.Algebra.Order.Group.Nat
import Mathlib.Order.Bounds.Basic
import Mathlib.Tactic.Common

/-!
# The Levenshtein distance

The least number of elements that are inserted, deleted or replaced to come from one list to another.
-/

namespace Core

variable {α : Type*}

/-- `ys` comes from `xs` by `n` insertions, deletions and replacements. -/
inductive Edits : ℕ → List α → List α → Prop
  | nil : Edits 0 [] []
  | keep {n : ℕ} {xs ys : List α} (a : α) (h : Edits n xs ys) : Edits n (a :: xs) (a :: ys)
  | replace {n : ℕ} {xs ys : List α} (a b : α) (h : Edits n xs ys) : Edits (n + 1) (a :: xs) (b :: ys)
  | insert {n : ℕ} {xs ys : List α} (b : α) (h : Edits n xs ys) : Edits (n + 1) xs (b :: ys)
  | delete {n : ℕ} {xs ys : List α} (a : α) (h : Edits n xs ys) : Edits (n + 1) (a :: xs) ys

variable [DecidableEq α]

def levenshtein : List α → List α → ℕ
  | [], ys => ys.length
  | xs, [] => xs.length
  | x :: xs, y :: ys => min ((if x = y then 0 else 1) + levenshtein xs ys)
      (min (1 + levenshtein (x :: xs) ys) (1 + levenshtein xs (y :: ys)))

@[simp] lemma levenshtein_nil_left (ys : List α) : levenshtein [] ys = ys.length := by rw [levenshtein]

@[simp] lemma levenshtein_nil_right (xs : List α) : levenshtein xs [] = xs.length := by
  cases xs <;> simp [levenshtein]

lemma levenshtein_cons_cons (x y : α) (xs ys : List α) : levenshtein (x :: xs) (y :: ys) =
    min ((if x = y then 0 else 1) + levenshtein xs ys)
      (min (1 + levenshtein (x :: xs) ys) (1 + levenshtein xs (y :: ys))) := by
  conv_lhs => unfold levenshtein

lemma levenshtein_le_insert (xs : List α) (y : α) (ys : List α) :
    levenshtein xs (y :: ys) ≤ 1 + levenshtein xs ys := by
  cases xs with
  | nil => simp [Nat.add_comm]
  | cons x xs =>
    rw [levenshtein_cons_cons]
    exact (min_le_right _ _).trans (min_le_left _ _)

lemma levenshtein_le_delete (x : α) (xs ys : List α) : levenshtein (x :: xs) ys ≤ 1 + levenshtein xs ys := by
  cases ys with
  | nil => simp [Nat.add_comm]
  | cons y ys =>
    rw [levenshtein_cons_cons]
    exact (min_le_right _ _).trans (min_le_right _ _)

lemma levenshtein_le_replace (x y : α) (xs ys : List α) :
    levenshtein (x :: xs) (y :: ys) ≤ (if x = y then 0 else 1) + levenshtein xs ys := by
  rw [levenshtein_cons_cons]
  exact min_le_left _ _

lemma levenshtein_le_max (xs ys : List α) : levenshtein xs ys ≤ max xs.length ys.length := by
  induction xs generalizing ys with
  | nil => simp
  | cons x xs ih =>
    cases ys with
    | nil => simp
    | cons y ys =>
      have hrep := levenshtein_le_replace x y xs ys
      have hrest := ih ys
      rw [List.length_cons, List.length_cons]
      split_ifs at hrep <;> omega

/-- No script is shorter. -/
lemma Edits.levenshtein_le {n : ℕ} {xs ys : List α} (h : Edits n xs ys) : levenshtein xs ys ≤ n := by
  induction h with
  | nil => simp
  | @keep _ xs ys a _ ih =>
    have hrep := levenshtein_le_replace a a xs ys
    rw [if_pos rfl, Nat.zero_add] at hrep
    exact hrep.trans ih
  | @replace n xs ys a b _ ih =>
    have hrep := levenshtein_le_replace a b xs ys
    split_ifs at hrep <;> omega
  | @insert n xs ys b _ ih =>
    have hins := levenshtein_le_insert xs b ys
    omega
  | @delete n xs ys a _ ih =>
    have hdel := levenshtein_le_delete a xs ys
    omega

omit [DecidableEq α] in
lemma edits_length_left (ys : List α) : Edits ys.length [] ys := by
  induction ys with
  | nil => exact .nil
  | cons y ys ih => exact .insert y ih

omit [DecidableEq α] in
lemma edits_length_right (xs : List α) : Edits xs.length xs [] := by
  induction xs with
  | nil => exact .nil
  | cons x xs ih => exact .delete x ih

/-- The distance is that of a script. -/
lemma edits_levenshtein (xs ys : List α) : Edits (levenshtein xs ys) xs ys := by
  induction xs generalizing ys with
  | nil =>
    rw [levenshtein_nil_left]
    exact edits_length_left ys
  | cons x xs ihx =>
    induction ys with
    | nil =>
      rw [levenshtein_nil_right]
      exact edits_length_right (x :: xs)
    | cons y ys ihy =>
      rw [levenshtein_cons_cons]
      rcases min_choice ((if x = y then 0 else 1) + levenshtein xs ys)
        (min (1 + levenshtein (x :: xs) ys) (1 + levenshtein xs (y :: ys))) with h | h
      · rw [h]
        split_ifs with hxy
        · rw [Nat.zero_add, hxy]
          exact .keep y (ihx ys)
        · rw [Nat.add_comm]
          exact .replace x y (ihx ys)
      · rw [h]
        rcases min_choice (1 + levenshtein (x :: xs) ys) (1 + levenshtein xs (y :: ys)) with h | h
        · rw [h, Nat.add_comm]
          exact .insert y ihy
        · rw [h, Nat.add_comm]
          exact .delete x (ihx (y :: ys))

/-- It is the least number of edits. -/
theorem isLeast_levenshtein (xs ys : List α) : IsLeast {n | Edits n xs ys} (levenshtein xs ys) :=
  ⟨edits_levenshtein xs ys, fun _ h => Edits.levenshtein_le h⟩

omit [DecidableEq α] in
lemma Edits.symm {n : ℕ} {xs ys : List α} (h : Edits n xs ys) : Edits n ys xs := by
  induction h with
  | nil => exact .nil
  | keep a _ ih => exact .keep a ih
  | replace a b _ ih => exact .replace b a ih
  | insert b _ ih => exact .delete b ih
  | delete a _ ih => exact .insert a ih

omit [DecidableEq α] in
lemma Edits.eq_of_zero {xs ys : List α} (h : Edits 0 xs ys) : xs = ys := by
  generalize hn : 0 = n at h
  induction h with
  | nil => rfl
  | keep a _ ih => rw [ih hn]
  | replace | insert | delete => exact absurd hn (by omega)

omit [DecidableEq α] in
lemma edits_self (xs : List α) : Edits 0 xs xs := by
  induction xs with
  | nil => exact .nil
  | cons x xs ih => exact .keep x ih

lemma levenshtein_comm (xs ys : List α) : levenshtein xs ys = levenshtein ys xs :=
  le_antisymm (edits_levenshtein ys xs).symm.levenshtein_le (edits_levenshtein xs ys).symm.levenshtein_le

lemma levenshtein_eq_zero_iff (xs ys : List α) : levenshtein xs ys = 0 ↔ xs = ys := by
  constructor
  · intro h
    have hedits := edits_levenshtein xs ys
    rw [h] at hedits
    exact hedits.eq_of_zero
  · rintro rfl
    exact Nat.le_zero.mp (edits_self xs).levenshtein_le

end Core
