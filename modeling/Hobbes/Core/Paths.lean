import Mathlib.Order.CompletePartialOrder
import Mathlib.Computability.EpsilonNFA
import Mathlib.Algebra.Order.Kleene

/-!
# Paths with epsilon transitions

How a path is split where it comes back to the state that it starts from, and epsilon transitions that lead back to
their state.
-/

namespace Core

open Computability

variable {α σ : Type*} {M : εNFA α σ} {s t u z : σ} {v w : List α} {a : Option α} {x y : List (Option α)}

/-! ### Strings between two states -/

/-- A path from `s` to `t` spells `w`. -/
def Spells (M : εNFA α σ) (s t : σ) (w : List α) : Prop := ∃ x : List (Option α), x.reduceOption = w ∧ M.IsPath s t x

lemma mem_evalFrom_iff_spells : t ∈ M.evalFrom {s} w ↔ Spells M s t w := εNFA.mem_evalFrom_iff_exists_path M

lemma spells_of_isPath (h : M.IsPath s t x) : Spells M s t x.reduceOption := ⟨x, rfl, h⟩

lemma Spells.refl (s : σ) : Spells M s s [] := ⟨[], rfl, .nil s⟩

lemma Spells.single (h : t ∈ M.step s a) : Spells M s t a.toList :=
  ⟨[a], List.reduceOption_singleton a, εNFA.IsPath.singleton M h⟩

lemma Spells.trans (h : Spells M s t v) (h' : Spells M t u w) : Spells M s u (v ++ w) := by
  obtain ⟨x, rfl, hx⟩ := h
  obtain ⟨y, rfl, hy⟩ := h'
  exact ⟨x ++ y, List.reduceOption_append x y, (εNFA.isPath_append M).mpr ⟨t, hx, hy⟩⟩

/-- A string is spelt by epsilon transitions, a transition with its first element, and what spells the others. -/
lemma spells_cons {c : α} :
    Spells M s t (c :: w) ↔ ∃ u v, Spells M s u [] ∧ v ∈ M.step u (some c) ∧ Spells M v t w := by
  constructor
  · rintro ⟨x, hx, hpath⟩
    induction hpath with
    | nil => cases hx
    | cons u s t a x hstep hpath ih =>
      cases a with
      | none =>
        obtain ⟨u', v, hu', hv, hw⟩ := ih hx
        exact ⟨u', v, (Spells.single hstep).trans hu', hv, hw⟩
      | some c' =>
        rw [List.reduceOption_cons_of_some] at hx
        obtain ⟨rfl, rfl⟩ := List.cons.inj hx
        exact ⟨s, u, .refl s, hstep, spells_of_isPath hpath⟩
  · rintro ⟨u, v, hu, hv, hw⟩
    exact (hu.trans (Spells.single hv)).trans hw

/-- What leads back to a state can be spelt any number of times. -/
lemma spells_kstar {L : Language α} (h : ∀ w ∈ L, Spells M s s w) {w : List α} (hw : w ∈ L∗) : Spells M s s w := by
  obtain ⟨ws, rfl, hws⟩ := Language.mem_kstar.mp hw
  induction ws with
  | nil => exact .refl s
  | cons w ws ih =>
    obtain ⟨hw, hws⟩ := List.forall_mem_cons.mp hws
    rw [List.flatten_cons]
    exact (h w hw).trans (ih hws (Language.join_mem_kstar hws))

/-! ### Where a path leads -/

/-- The path `x` to `z` begins with a string of `L`, and a shorter path from `t` is left of it. -/
def Leads (M : εNFA α σ) (L : Language α) (t z : σ) (x : List (Option α)) : Prop :=
  ∃ w ∈ L, ∃ y : List (Option α), M.IsPath t z y ∧ y.length < x.length ∧ x.reduceOption = w ++ y.reduceOption

variable {L L' X : Language α}

lemma Leads.mono (h : Leads M L t z x) (hL : L ≤ L') : Leads M L' t z x := by
  obtain ⟨w, hw, y, hy, hlen, heq⟩ := h
  exact ⟨w, hL hw, y, hy, hlen, heq⟩

/-- A path begins with its first transition. -/
lemma leads_single (h : M.IsPath t z x) (ha : a.toList ∈ L) : Leads M L t z (a :: x) := by
  refine ⟨a.toList, ha, x, h, Nat.lt_succ_self _, ?_⟩
  cases a with
  | none => exact List.reduceOption_cons_of_none x
  | some c => exact List.reduceOption_cons_of_some c x

/-- What is left leads on. -/
lemma Leads.trans (h : Leads M L t z x) (h' : ∀ y : List (Option α), M.IsPath t z y → Leads M X u z y) :
    Leads M (L * X) u z x := by
  obtain ⟨w, hw, y, hy, hlen, heq⟩ := h
  obtain ⟨v, hv, y', hy', hlen', heq'⟩ := h' y hy
  refine ⟨w ++ v, Language.append_mem_mul hw hv, y', hy', hlen'.trans hlen, ?_⟩
  rw [heq, heq', List.append_assoc]

/-- A path from `s` that leads back to `s` or on to `t` leads to `t` in the end. -/
lemma leads_kstar (hne : s ≠ z) (h : ∀ x : List (Option α), M.IsPath s z x → x ≠ [] → Leads M L s z x ∨ Leads M X t z x)
    {x : List (Option α)} (hx : M.IsPath s z x) : Leads M (L∗ * X) t z x := by
  induction hlen : x.length using Nat.strong_induction_on generalizing x with
  | _ n ih =>
    have hnil : x ≠ [] := by
      rintro rfl
      exact hne ((εNFA.isPath_nil M).mp hx)
    rcases h x hx hnil with ⟨w, hw, y, hy, hlt, heq⟩ | hexit
    · obtain ⟨v, hv, y', hy', hlt', heq'⟩ := ih y.length (hlen ▸ hlt) hy rfl
      refine ⟨w ++ v, ?_, y', hy', hlt'.trans hlt, by rw [heq, heq', List.append_assoc]⟩
      have hmem := Language.append_mem_mul hw hv
      rw [← mul_assoc] at hmem
      exact mul_le_mul_left (mul_kstar_le_kstar (a := L)) X hmem
    · exact hexit.mono (le_mul_of_one_le_left' one_le_kstar)

/-! ### Cycles -/

/-- Epsilon transitions lead from a state back to it. -/
def EpsCycle (M : εNFA α σ) (s : σ) : Prop := ∃ x : List (Option α), x ≠ [] ∧ x.reduceOption = [] ∧ M.IsPath s s x

/-- There is a way to another state, and back. -/
lemma epsCycle_of_spells (hne : s ≠ t) (h : Spells M s t []) (h' : Spells M t s []) : EpsCycle M s := by
  obtain ⟨x, hx, hpath⟩ := h
  obtain ⟨y, hy, hpath'⟩ := h'
  refine ⟨x ++ y, ?_, by rw [List.reduceOption_append, hx, hy, List.append_nil],
    (εNFA.isPath_append M).mpr ⟨t, hpath, hpath'⟩⟩
  rintro hnil
  obtain rfl := (List.append_eq_nil_iff.mp hnil).1
  exact hne ((εNFA.isPath_nil M).mp hpath)

end Core
