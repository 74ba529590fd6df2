import Mathlib.Data.Set.Basic
import Mathlib.Tactic.Common

/-!
# Derivations by rules

A goal is derivable if it is a fact, or all premises of one of its rules are. Derivations may be cyclic. A search takes
the premises of a rule in order, as long as they are derivable, and takes the goals that it is in the middle of to be
so. It finds out what is derivable if for no goal without a derivation all premises are derivable or taken to be so.
-/

namespace Core

variable {κ : Type} (fact : κ → Prop) (rule : κ → List κ → Prop)

/-- There is a derivation, possibly a cyclic one. -/
def Derivable (c : κ) : Prop := ∃ S : Set κ, c ∈ S ∧ ∀ d ∈ S, fact d ∨ ∃ ds, rule d ds ∧ ∀ e ∈ ds, e ∈ S

/-- A search for `q` meets the goal `c` in the middle of the goals of `path`. -/
inductive Searched (q : κ) : List κ → κ → Prop
  | start : Searched q [] q
  | premise {path : List κ} {c r : κ} {pre post : List κ} (h : Searched q path c) (hpath : c ∉ path) (hfact : ¬ fact c)
      (hrule : rule c (pre ++ r :: post)) (hpre : ∀ p ∈ pre, Derivable fact rule p ∨ p ∈ c :: path) :
      Searched q (c :: path) r

/-- Wherever the search meets a goal without a derivation, there is a premise that is neither derivable nor taken to be
so. -/
def Refuted (q : κ) : Prop :=
  ∀ path c, Searched fact rule q path c → c ∉ path → ¬ Derivable fact rule c →
    ∀ ds, rule c ds → ∃ d ∈ ds, ¬ Derivable fact rule d ∧ d ∉ c :: path

variable {fact rule} {c : κ}

lemma derivable_iff : Derivable fact rule c ↔ fact c ∨ ∃ ds, rule c ds ∧ ∀ d ∈ ds, Derivable fact rule d := by
  constructor
  · rintro ⟨S, hc, hS⟩
    exact (hS c hc).imp id fun ⟨ds, hds, hmem⟩ => ⟨ds, hds, fun d hd => ⟨S, hmem d hd, hS⟩⟩
  · intro h
    refine ⟨{d | fact d ∨ ∃ ds, rule d ds ∧ ∀ e ∈ ds, Derivable fact rule e}, h, ?_⟩
    rintro d (hd | ⟨ds, hds, hall⟩)
    · exact .inl hd
    · refine .inr ⟨ds, hds, fun e he => ?_⟩
      obtain ⟨S, heS, hS⟩ := hall e he
      exact (hS e heS).imp id fun ⟨es, hes, hmem⟩ => ⟨es, hes, fun f hf => ⟨S, hmem f hf, hS⟩⟩

lemma Derivable.of_fact (h : fact c) : Derivable fact rule c := derivable_iff.mpr (.inl h)

end Core
