import Mathlib.Data.List.AList
import Mathlib.Data.List.MinMax
import Mathlib.Data.List.Sort
import Mathlib.Tactic.Common

/-!
# Ordered maps

A map with numbers for keys, as an association list; the searches of an ordered container only look
at the keys. An iterator at the end is `none`.
-/

namespace Core

abbrev OrderedMap (β : Type*) := AList fun _ : ℕ => β

namespace OrderedMap

variable {β : Type*} (m : OrderedMap β) (x : ℕ)

/-- The least key that is not below `x`. -/
def lowerBound : Option ℕ := (m.keys.filter (x ≤ ·)).min?

/-- The last key. -/
def last : Option ℕ := m.keys.max?

/-- One step back from a key. At the first one this is not defined. -/
def pred (k : ℕ) : Option ℕ := (m.keys.filter (· < k)).max?

variable {m x}

lemma mem_of_last {k : ℕ} (h : m.last = some k) : k ∈ m ∧ ∀ j ∈ m, j ≤ k := by
  rw [last, List.max?_eq_some_iff] at h
  exact h

lemma notMem_of_last (h : m.last = none) (k : ℕ) : k ∉ m := by
  rw [last, List.max?_eq_none_iff] at h
  intro hk
  rw [AList.mem_keys, h] at hk
  exact List.not_mem_nil hk

lemma lowerBound_eq_some {k : ℕ} (h : m.lowerBound x = some k) :
    k ∈ m ∧ x ≤ k ∧ ∀ j ∈ m, x ≤ j → k ≤ j := by
  rw [lowerBound, List.min?_eq_some_iff] at h
  obtain ⟨hmem, hle⟩ := h
  obtain ⟨hk, hx⟩ := List.mem_filter.mp hmem
  refine ⟨hk, by simpa using hx, fun j hj hxj => hle j (List.mem_filter.mpr ⟨hj, by simpa⟩)⟩

lemma lowerBound_eq_none (h : m.lowerBound x = none) : ∀ j ∈ m, j < x := by
  rw [lowerBound, List.min?_eq_none_iff, List.filter_eq_nil_iff] at h
  intro j hj
  simpa using h j hj

lemma lowerBound_of_mem (h : x ∈ m) : m.lowerBound x = some x := by
  rw [lowerBound, List.min?_eq_some_iff]
  exact ⟨List.mem_filter.mpr ⟨h, by simp⟩, fun j hj => by simpa using (List.mem_filter.mp hj).2⟩

lemma pred_eq_some {j k : ℕ} (h : m.pred k = some j) :
    j ∈ m ∧ j < k ∧ ∀ i ∈ m, i < k → i ≤ j := by
  rw [pred, List.max?_eq_some_iff] at h
  obtain ⟨hmem, hle⟩ := h
  obtain ⟨hj, hk⟩ := List.mem_filter.mp hmem
  exact ⟨hj, by simpa using hk, fun i hi hik => hle i (List.mem_filter.mpr ⟨hi, by simpa⟩)⟩

/-! ### Going through a map -/

variable (m) in
/-- The keys in order. -/
def sortedKeys : List ℕ := m.keys.insertionSort (· ≤ ·)

lemma mem_sortedKeys {k : ℕ} : k ∈ m.sortedKeys ↔ k ∈ m := List.mem_insertionSort _

lemma pairwise_sortedKeys : m.sortedKeys.Pairwise (· < ·) := by
  have hle : m.sortedKeys.Pairwise (· ≤ ·) := List.pairwise_insertionSort _ _
  have hne : m.sortedKeys.Nodup := (List.perm_insertionSort _ _).nodup_iff.2 m.nodupKeys
  exact (hle.and hne).imp fun h => Nat.lt_of_le_of_ne h.1 h.2

end OrderedMap

end Core
