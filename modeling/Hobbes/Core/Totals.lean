import Mathlib.Data.Finset.Fold

/-!
# Folds of an idempotent operation

A value that is in a set already changes nothing in the fold over the set.
-/

namespace Core.Totals

variable {α β : Type*} {op : β → β → β} [hc : Std.Commutative op] [ha : Std.Associative op] [Std.IdempotentOp op]
  [DecidableEq α] {s t : Finset α} {f : α → β} {x y : α} {b c : β}

lemma op_fold_of_mem (hx : x ∈ s) : op (f x) (s.fold op b f) = s.fold op b f := by
  have hinsert : (insert x s).fold op b f = op (f x) (s.fold op b f) := Finset.fold_insert_idem
  rw [← hinsert, Finset.insert_eq_of_mem hx]

/-- The start values of two folds may be exchanged. -/
lemma op_fold_op_fold (s t : Finset α) (f : α → β) (b c : β) :
    op (s.fold op b f) (t.fold op c f) = op c ((s ∪ t).fold op b f) := by
  induction t using Finset.induction_on with
  | empty => rw [Finset.fold_empty, Finset.union_empty, hc.comm]
  | insert z t _ ih =>
    rw [Finset.fold_insert_idem, Finset.union_insert, Finset.fold_insert_idem]
    calc op (s.fold op b f) (op (f z) (t.fold op c f))
        = op (f z) (op (s.fold op b f) (t.fold op c f)) := by
          rw [← ha.assoc, hc.comm (s.fold op b f), ha.assoc]
      _ = op (f z) (op c ((s ∪ t).fold op b f)) := by rw [ih]
      _ = op c (op (f z) ((s ∪ t).fold op b f)) := by rw [← ha.assoc, hc.comm (f z), ha.assoc]

/-- It does not matter which of the values of a set its fold starts with. -/
lemma fold_start (hx : x ∈ s) (hy : y ∈ s) : s.fold op (f x) f = s.fold op (f y) f :=
  calc s.fold op (f x) f = op (f y) (s.fold op (f x) f) := (op_fold_of_mem hy).symm
    _ = op (f x) ((∅ ∪ s).fold op (f y) f) := op_fold_op_fold ∅ s f (f y) (f x)
    _ = s.fold op (f y) f := by rw [Finset.empty_union]; exact op_fold_of_mem hx

lemma op_fold_union (hy : y ∈ t) :
    op (s.fold op (f x) f) (t.fold op (f y) f) = (s ∪ t).fold op (f x) f :=
  (op_fold_op_fold s t f (f x) (f y)).trans (op_fold_of_mem (Finset.mem_union_right s hy))

/-- What a fold absorbs may be put into its set. -/
lemma fold_union_of_absorbs (h : ∀ z ∈ t, op (f z) (s.fold op b f) = s.fold op b f) :
    (s ∪ t).fold op b f = s.fold op b f := by
  induction t using Finset.induction_on with
  | empty => rw [Finset.union_empty]
  | insert z t _ ih =>
    rw [Finset.union_insert, Finset.fold_insert_idem, ih fun w hw => h w (Finset.mem_insert_of_mem hw)]
    exact h z (Finset.mem_insert_self z t)

/-- The folds over a set and over a part of it are equal if and only if the one over the part absorbs the rest. -/
lemma fold_eq_fold_iff (hst : s ⊆ t) :
    s.fold op b f = t.fold op b f ↔ ∀ z ∈ t, op (f z) (s.fold op b f) = s.fold op b f := by
  constructor
  · intro heq z hz
    rw [heq]
    exact op_fold_of_mem hz
  · intro h
    rw [← fold_union_of_absorbs h, Finset.union_eq_right.2 hst]

end Core.Totals
