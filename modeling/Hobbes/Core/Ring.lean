import Mathlib.Data.Nat.ModEq
import Hobbes.Core.Transition

/-!
# Windows over a ring of slots

Values are numbered in the order in which they are pushed, and value `i` lies in slot `i % size`.
One slot of the ring stays free, so that a full ring and an empty one differ.
-/

namespace Core

/-- The values that have been pushed and not yet popped, by their numbers. -/
@[ext]
structure Window (size : ℕ) where
  popped : ℕ
  pushed : ℕ
  le : popped ≤ pushed
  room : pushed < popped + size

/-- Two values less than a turn apart lie in different slots. -/
lemma slot_injective {size i j : ℕ} (h : i % size = j % size) (hle : i ≤ j) (hlt : j < i + size) :
    i = j := by
  have hd : size ∣ j - i := (Nat.modEq_iff_dvd' hle).mp h
  have : j - i = 0 := Nat.eq_zero_of_dvd_of_lt hd (by omega)
  omega

namespace Window

variable {size : ℕ} (w : Window size)

lemma size_pos (w : Window size) : 0 < size := by
  have := w.le
  have := w.room
  omega

/-- The window before anything was pushed. -/
def empty (h : 0 < size) : Window size := ⟨0, 0, le_rfl, by omega⟩

def push (h : w.pushed + 1 < w.popped + size) : Window size :=
  ⟨w.popped, w.pushed + 1, by have := w.le; omega, h⟩

def pop (h : w.popped < w.pushed) : Window size :=
  ⟨w.popped + 1, w.pushed, h, by have := w.room; omega⟩

@[simp] lemma push_popped (h) : (w.push h).popped = w.popped := rfl

@[simp] lemma push_pushed (h) : (w.push h).pushed = w.pushed + 1 := rfl

@[simp] lemma pop_popped (h) : (w.pop h).popped = w.popped + 1 := rfl

@[simp] lemma pop_pushed (h) : (w.pop h).pushed = w.pushed := rfl

/-- The two ends lie in one slot exactly if the window is empty. -/
lemma slot_eq_iff : w.popped % size = w.pushed % size ↔ w.popped = w.pushed :=
  ⟨fun h => slot_injective h w.le w.room, fun h => by rw [h]⟩

/-- The slot after the last value is the slot of the first one exactly if the window is full. -/
lemma slot_succ_eq_iff :
    w.popped % size = (w.pushed + 1) % size ↔ w.pushed + 1 = w.popped + size := by
  have hle := w.le
  have hr := w.room
  constructor
  · intro h
    by_contra hne
    have := slot_injective h (by omega) (by omega)
    omega
  · intro h
    rw [h, Nat.add_mod_right]

/-- A value of the window is not in the slot that is filled next. -/
lemma slot_ne {i : ℕ} (hi : w.popped ≤ i) (hi' : i < w.pushed) : i % size ≠ w.pushed % size := by
  intro h
  have := slot_injective h (by omega) (by have := w.room; omega)
  omega

/-- The two ways in which a window moves. -/
inductive Move where
  | push
  | pop
  deriving DecidableEq

def step : Move → Window size → Option (Window size)
  | .push, w => if h : w.pushed + 1 < w.popped + size then some (w.push h) else none
  | .pop, w => if h : w.popped < w.pushed then some (w.pop h) else none

end Window

end Core
