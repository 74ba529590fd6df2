import Mathlib.Data.List.Sort
import Mathlib.Tactic.Common

/-!
# Sets that grow until nothing changes

An ordered set is kept as a list. What is computed from it can depend on the order in which it is
gone through, but what is in it does not.
-/

namespace Core

variable {α σ : Type*}

/-! ### Ordered sets -/

section

variable [DecidableEq α] (r : α → α → Prop) [DecidableRel r]

def insertOrd (a : α) (l : List α) : List α := if a ∈ l then l else l.orderedInsert r a

/-- Insert the elements of a list in order. -/
def insertAll (l as : List α) : List α := as.foldl (fun l a => insertOrd r a l) l

variable {r} {a b : α} {l as : List α}

@[simp] lemma mem_insertOrd : a ∈ insertOrd r b l ↔ a = b ∨ a ∈ l := by
  unfold insertOrd
  split_ifs with h
  · exact ⟨.inr, fun hab => hab.elim (fun hab => hab ▸ h) id⟩
  · exact List.mem_orderedInsert r

@[simp] lemma mem_insertAll : a ∈ insertAll r l as ↔ a ∈ l ∨ a ∈ as := by
  induction as generalizing l with
  | nil => simp [insertAll]
  | cons b as ih =>
    have hstep : insertAll r l (b :: as) = insertAll r (insertOrd r b l) as := rfl
    rw [hstep, ih, mem_insertOrd, List.mem_cons]
    tauto

lemma length_insertOrd_of_notMem (h : a ∉ l) : (insertOrd r a l).length = l.length + 1 := by
  rw [insertOrd, if_neg h, List.orderedInsert_length]

lemma nodup_insertOrd (h : l.Nodup) : (insertOrd r a l).Nodup := by
  unfold insertOrd
  split_ifs with ha
  · exact h
  · exact (List.perm_orderedInsert r a l).nodup_iff.mpr (List.nodup_cons.mpr ⟨ha, h⟩)

end

/-! ### Loops that run until nothing changes -/

section

variable [DecidableEq σ] {f : σ → σ} {n : ℕ} {s s' : σ}

/-- Apply `f` until it changes nothing. Where `n` times are not enough there is no result. -/
def fixpoint (f : σ → σ) : ℕ → σ → Option σ
  | 0, _ => none
  | n + 1, s => if f s = s then some s else fixpoint f n (f s)

lemma fixpoint_fixed (h : fixpoint f n s = some s') : f s' = s' := by
  induction n generalizing s with
  | zero => cases h
  | succ n ih =>
    rw [fixpoint] at h
    split_ifs at h with hs
    · rwa [← Option.some.inj h]
    · exact ih h

/-- What grows with every change and is bounded lets the loop end. -/
lemma exists_fixpoint {P : σ → Prop} {μ : σ → ℕ} {b : ℕ} (hstep : ∀ s, P s → P (f s)) (hbound : ∀ s, P s → μ s ≤ b)
    (hgrow : ∀ s, P s → f s ≠ s → μ s < μ (f s)) (h₀ : P s) (hn : b < n + μ s) : ∃ s', fixpoint f n s = some s' := by
  induction n generalizing s with
  | zero => exact absurd (hbound s h₀) (by omega)
  | succ n ih =>
    rw [fixpoint]
    split_ifs with hs
    · exact ⟨s, rfl⟩
    · have hlt := hgrow s h₀ hs
      exact ih (hstep s h₀) (by omega)

/-- What holds at the start and is kept by `f` holds at the end. -/
lemma fixpoint_invariant {P : σ → Prop} (h : fixpoint f n s = some s') (h₀ : P s)
    (hstep : ∀ s, P s → P (f s)) : P s' := by
  induction n generalizing s with
  | zero => cases h
  | succ n ih =>
    rw [fixpoint] at h
    split_ifs at h with hs
    · rwa [← Option.some.inj h]
    · exact ih h (hstep s h₀)

end

end Core
