import Mathlib.Data.List.Basic
import Mathlib.Tactic.Common

/-!
# Runs of event-driven systems

A system is a partial function `step : ε → σ → Option σ`: the event `e` is enabled in `s` when
`step e s` is a state. A schedule is a list of events, so that quantifying over schedules is
quantifying over interleavings.
-/

namespace Core

variable {ε σ τ : Type*}

/-- Perform the events of a schedule in order, failing at the first one that is not enabled. -/
def runEvents (step : ε → σ → Option σ) : List ε → σ → Option σ
  | [], s => some s
  | e :: es, s => (step e s).bind (runEvents step es)

/-- The states that some schedule leads to. -/
inductive Reachable (step : ε → σ → Option σ) (s₀ : σ) : σ → Prop where
  | start : Reachable step s₀ s₀
  | next {s s' : σ} (e : ε) (h : Reachable step s₀ s) (hs : step e s = some s') :
      Reachable step s₀ s'

/-- The system in which only the events that meet a condition are enabled: its runs are those of
the system whose steps all meet the condition. -/
def guarded (ok : ε → σ → Prop) [∀ e s, Decidable (ok e s)] (step : ε → σ → Option σ) (e : ε)
    (s : σ) : Option σ :=
  if ok e s then step e s else none

variable {step : ε → σ → Option σ} {s₀ s s' : σ}

@[simp] lemma runEvents_nil : runEvents step [] s = some s := rfl

@[simp] lemma runEvents_cons (e : ε) (es : List ε) :
    runEvents step (e :: es) s = (step e s).bind (runEvents step es) := rfl

lemma Reachable.runEvents {es : List ε} (h : Reachable step s₀ s)
    (hr : runEvents step es s = some s') : Reachable step s₀ s' := by
  induction es generalizing s with
  | nil => cases hr; exact h
  | cons e es ih =>
    obtain ⟨t, ht, hr⟩ := Option.bind_eq_some_iff.mp hr
    exact ih (h.next e ht) hr

/-- What holds at the start and is kept by every enabled event holds in every reachable state. -/
lemma Reachable.invariant {P : σ → Prop} (h : Reachable step s₀ s) (h₀ : P s₀)
    (hstep : ∀ e s s', P s → step e s = some s' → P s') : P s := by
  induction h with
  | start => exact h₀
  | next e _ hs ih => exact hstep e _ _ ih hs

lemma guarded_eq_some {ok : ε → σ → Prop} [∀ e s, Decidable (ok e s)] {e : ε} :
    guarded ok step e s = some s' ↔ ok e s ∧ step e s = some s' := by
  simp [guarded]

/-- Forward simulation: when every event is matched by a step of the abstract system or by no
step at all, every reachable state is related to a reachable abstract one. -/
lemma Reachable.simulation {δ : Type*} {astep : δ → τ → Option τ} {R : σ → τ → Prop} {t₀ : τ}
    (h : Reachable step s₀ s) (h₀ : R s₀ t₀)
    (hstep : ∀ e s s' t, R s t → step e s = some s' →
      R s' t ∨ ∃ d t', astep d t = some t' ∧ R s' t') :
    ∃ t, Reachable astep t₀ t ∧ R s t := by
  induction h with
  | start => exact ⟨t₀, .start, h₀⟩
  | next e _ hs ih =>
    obtain ⟨t, ht, hR⟩ := ih
    rcases hstep e _ _ t hR hs with hR' | ⟨d, t', hd, hR'⟩
    · exact ⟨t, ht, hR'⟩
    · exact ⟨t', ht.next d hd, hR'⟩

end Core
