import Hobbes.Core.Ring
import Hobbes.Storage.WaitProtocol

/-!
# The shared queue is a bounded window

The two indices move as the ends of a window over the ring of slots: a side that has left `next`
finds a slot of its own, and what the futex and the wait state do is invisible from here. The pipe
built over the queue takes `next`, `push` and `pop` as single steps on this account.
-/

namespace Hobbes.Storage

open Core Function

variable {q q' : Queue} {count : ℕ}

/-- The indices of a queue are the slots at the two ends of a window. -/
structure Queue.Ends (q : Queue) (w : Window (ringSize count)) : Prop where
  inv : q.Inv
  count_eq : q.count = count
  writer : q.idx .writer = w.pushed % ringSize count
  reader : q.idx .reader = w.popped % ringSize count

/-- What happens to the indices in one event: nothing, or one side publishes its next index. -/
lemma Queue.step_cases {e : QueueEvent} (hs : Queue.step e q = some q') :
    q'.count = q.count ∧ (q'.idx = q.idx ∨
      ∃ s v, q.pc s = .store v ∧ q'.idx = update q.idx s v) := by
  cases e with
  | run s =>
    unfold Queue.step Queue.access at hs
    cases hpc : q.pc s <;> simp only [hpc, Option.some.injEq, reduceCtorEq] at hs <;> subst hs
    case store v => exact ⟨rfl, .inr ⟨s, v, hpc, rfl⟩⟩
    all_goals exact ⟨by simp, .inl (by simp)⟩
  | interrupt s =>
    cases hpc : q.pc s <;> simp only [Queue.step, hpc, Option.some.injEq, reduceCtorEq] at hs
    subst hs
    exact ⟨rfl, .inl rfl⟩
  | timeout =>
    cases hpc : q.pc .reader <;> simp only [Queue.step, hpc, Option.some.injEq, reduceCtorEq] at hs
    subst hs
    exact ⟨rfl, .inl rfl⟩

lemma nextIndex_slot {i : ℕ} (hc : 0 < count) :
    nextIndex count (i % ringSize count) = (i + 1) % ringSize count := by
  have hr : 0 < ringSize count := by unfold ringSize; omega
  rw [nextIndex_eq (Nat.mod_lt _ hr), Nat.add_mod, Nat.mod_mod, ← Nat.add_mod]

/-- A process that has left `next` finds its end of the window free to move. -/
lemma Queue.Ends.movable {w : Window (ringSize count)} (h : q.Ends w) :
    ((q.pc .writer).Entered → w.pushed + 1 < w.popped + ringSize count) ∧
      ((q.pc .reader).Entered → w.popped < w.pushed) := by
  have hpos : 0 < count := by have := h.inv.count_ge; have := h.count_eq; omega
  constructor <;> intro he
  · have hne : q.idx .reader ≠ nextIndex q.count (q.idx .writer) := h.inv.entered .writer he
    rw [h.count_eq, h.writer, h.reader, nextIndex_slot hpos] at hne
    have := mt w.slot_succ_eq_iff.mpr hne
    have := w.room
    omega
  · have hne : q.idx .writer ≠ q.idx .reader := h.inv.entered .reader he
    rw [h.writer, h.reader] at hne
    have := mt w.slot_eq_iff.mpr hne.symm
    have := w.le
    omega

lemma Queue.Ends.step {w : Window (ringSize count)} {e : QueueEvent} (h : q.Ends w)
    (hs : Queue.step e q = some q') :
    q'.Ends w ∨ ∃ m w', Window.step m w = some w' ∧ q'.Ends w' := by
  have hpos : 0 < count := by have := h.inv.count_ge; have := h.count_eq; omega
  obtain ⟨hcount, hidx | ⟨s, v, hpc, hidx⟩⟩ := Queue.step_cases hs
  · exact .inl ⟨h.inv.step hs, hcount.trans h.count_eq, hidx ▸ h.writer, hidx ▸ h.reader⟩
  right
  have hv := h.inv.stored s v hpc
  rw [h.count_eq] at hv
  cases s with
  | writer =>
    have hroom := h.movable.1 (by rw [hpc]; trivial)
    refine ⟨.push, w.push hroom, by simp [Window.step, hroom], h.inv.step hs,
      hcount.trans h.count_eq, ?_, ?_⟩
    · rw [hidx, update_self, hv, h.writer, nextIndex_slot hpos, Window.push_pushed]
    · rw [hidx, update_of_ne (by decide), h.reader, Window.push_popped]
  | reader =>
    have hlt := h.movable.2 (by rw [hpc]; trivial)
    refine ⟨.pop, w.pop hlt, by simp [Window.step, hlt], h.inv.step hs,
      hcount.trans h.count_eq, ?_, ?_⟩
    · rw [hidx, update_of_ne (by decide), h.writer, Window.pop_pushed]
    · rw [hidx, update_self, hv, h.reader, nextIndex_slot hpos, Window.pop_popped]

/-- The shared queue refines the window: a store of an index is a push or a pop, and every other
event leaves the window alone. -/
theorem Queue.refines_window (hc : 2 ≤ count) (h : Reachable Queue.step (Queue.init count) q) :
    ∃ w : Window (ringSize count),
      Reachable Window.step (Window.empty (Nat.zero_lt_of_lt (ringSize_pos hc))) w ∧ q.Ends w := by
  have h₀ : (Queue.init count).Ends (Window.empty (Nat.zero_lt_of_lt (ringSize_pos hc))) :=
    ⟨Queue.init_inv hc, rfl, by simp [Queue.init, Window.empty], by simp [Queue.init, Window.empty]⟩
  exact h.simulation h₀ fun _ _ _ _ hR hs => hR.step hs

end Hobbes.Storage
