import Mathlib.Data.Set.Card
import Mathlib.Logic.Relation

/-!
# Acyclic relations

Where only finitely many elements can be reached, their number is a measure that a step without a way back
decreases.
-/

namespace Core

open Relation

variable {α : Type*} {r : α → α → Prop} {a b : α}

/-- The number of elements that can be reached by one step or more. -/
noncomputable def height (r : α → α → Prop) (a : α) : ℕ := {c | TransGen r a c}.ncard

lemma height_lt (hab : r a b) (hb : ¬ TransGen r b b) (hfin : {c | TransGen r a c}.Finite) :
    height r b < height r a := by
  refine Set.ncard_lt_ncard ⟨fun c hc => ?_, fun hle => ?_⟩ hfin
  · exact TransGen.head hab hc
  · exact hb (hle (TransGen.single hab))

/-- There is no way back to an element that is accessible. -/
lemma not_transGen_of_acc (h : Acc r a) : ¬ TransGen r a a := by
  have hacc := h.transGen
  intro hcycle
  induction hacc with
  | intro a _ ih => exact ih a hcycle (h.inv_of_transGen hcycle) hcycle

end Core
