import Mathlib.Data.List.Nodup
import Mathlib.Logic.Function.Basic
import Mathlib.Tactic.Common

/-!
# Linked lists

Nodes in memory, each with a link to the next one or none. A node that there is not has no link at all.
-/

namespace Core

variable {α : Type*} {next next' : α → Option (Option α)} {p q : Option α} {l l' : List α}

/-- `l` is what is met from `p` on. -/
inductive Linked (next : α → Option (Option α)) : Option α → List α → Prop where
  | nil : Linked next none []
  | cons {a : α} {n : Option α} {l : List α} (ha : next a = some n) (hl : Linked next n l) :
      Linked next (some a) (a :: l)

namespace Linked

lemma of_some {a : α} (h : Linked next (some a) l) :
    ∃ n l', l = a :: l' ∧ next a = some n ∧ Linked next n l' := by
  cases h with
  | cons ha hl => exact ⟨_, _, rfl, ha, hl⟩

lemma of_none (h : Linked next none l) : l = [] := by
  cases h
  rfl

/-- Only the links of the nodes that are met matter. -/
lemma congr (h : Linked next p l) (hnext : ∀ a ∈ l, next' a = next a) : Linked next' p l := by
  induction h with
  | nil => exact .nil
  | cons ha _ ih =>
    rw [List.forall_mem_cons] at hnext
    exact .cons (hnext.1.trans ha) (ih hnext.2)

/-- The last node is linked to another list. -/
lemma append [DecidableEq α] (h : Linked next p l) (hnodup : l.Nodup) (hq : Linked next' q l')
    (hlast : ∀ a ∈ l, next a = some none → next' a = some q)
    (hlink : ∀ a ∈ l, next a ≠ some none → next' a = next a) (hne : l ≠ []) : Linked next' p (l ++ l') := by
  induction h with
  | nil => exact absurd rfl hne
  | @cons a n l ha hl ih =>
    rw [List.forall_mem_cons] at hlast hlink
    rw [List.nodup_cons] at hnodup
    cases n with
    | none =>
      obtain rfl := hl.of_none
      exact .cons (hlast.1 ha) hq
    | some b =>
      obtain ⟨n', l'', rfl, -, -⟩ := hl.of_some
      refine .cons ((hlink.1 ?_).trans ha) (ih hnodup.2 hlast.2 hlink.2 (List.cons_ne_nil _ _))
      rw [ha]
      exact nofun

end Linked

end Core
