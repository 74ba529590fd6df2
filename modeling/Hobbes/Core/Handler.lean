import Mathlib.Tactic.Common

/-!
# Handlers

A handler changes a state and returns or throws, and what it has changed before it throws stays
changed. `Keeps I m` says that `m` keeps `I` either way. There is a rule for each way of combining
handlers.
-/

namespace Core

variable {ε σ κ α β : Type} {I : σ → Prop}

/-- The state in which a handler ends. -/
def finalState : EStateM.Result ε σ α → σ
  | .ok _ s | .error _ s => s

def Keeps (I : σ → Prop) (m : EStateM ε σ α) : Prop := ∀ s, I s → I (finalState (m s))

/-- Use a handler of a part of the state. -/
def zoom (get : σ → κ) (set : κ → σ → σ) (m : EStateM ε κ α) : EStateM ε σ α := fun s =>
  match m (get s) with
  | .ok a k => .ok a (set k s)
  | .error e k => .error e (set k s)

lemma tryCatch_apply (m : EStateM ε σ α) (k : ε → EStateM ε σ α) (s : σ) :
    tryCatch m k s = match m s with
      | .ok a s' => .ok a s'
      | .error e s' => k e s' := by
  simp only [MonadExcept.tryCatch, tryCatchThe, MonadExceptOf.tryCatch, EStateM.tryCatch]
  cases m s <;> rfl

/-- A handler that ends as another one does may stand in its place. -/
lemma tryCatch_congr {m m' : EStateM ε σ α} {k : ε → EStateM ε σ α} {s s' : σ} (h : m s = m' s') :
    tryCatch m k s = tryCatch m' k s' := by
  rw [tryCatch_apply, tryCatch_apply, h]

namespace Keeps

lemma pure (a : α) : Keeps I (pure a : EStateM ε σ α) := fun _ hs => hs

lemma throw (e : ε) : Keeps I (throw e : EStateM ε σ α) := fun _ hs => hs

lemma bind {m : EStateM ε σ α} {k : α → EStateM ε σ β} (h : Keeps I m) (hk : ∀ a, Keeps I (k a)) :
    Keeps I (m >>= k) := by
  intro s hs
  have hm := h s hs
  simp only [Bind.bind, EStateM.bind]
  cases hr : m s with
  | ok a s' => rw [hr] at hm; exact hk a s' hm
  | error e s' => rw [hr] at hm; exact hm

lemma tryCatch {m : EStateM ε σ α} {k : ε → EStateM ε σ α} (h : Keeps I m)
    (hk : ∀ e, Keeps I (k e)) : Keeps I (tryCatch m k) := by
  intro s hs
  have hm := h s hs
  rw [tryCatch_apply]
  cases hr : m s with
  | ok a s' => rw [hr] at hm; exact hm
  | error e s' => rw [hr] at hm; exact hk e s' hm

lemma modify {f : σ → σ} (h : ∀ s, I s → I (f s)) : Keeps I (modify f : EStateM ε σ PUnit) :=
  fun s hs => h s hs

/-- What comes after reading the state may rely on what holds of it. -/
lemma get_bind {k : σ → EStateM ε σ β} (h : ∀ s, I s → I (finalState (k s s))) :
    Keeps I (get >>= k) :=
  fun s hs => h s hs

lemma zoom {get : σ → κ} {set : κ → σ → σ} {m : EStateM ε κ α} (h : ∀ k s, I s → I (set k s)) :
    Keeps I (zoom get set m) := by
  intro s hs
  simp only [Core.zoom]
  cases m (get s) with
  | ok a k => exact h k s hs
  | error e k => exact h k s hs

lemma liftExcept (x : Except ε α) : Keeps I (liftExcept x : EStateM ε σ α) := by
  cases x with
  | ok a => exact pure a
  | error e => exact throw e

end Keeps

end Core
