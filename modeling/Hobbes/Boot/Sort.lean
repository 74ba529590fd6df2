import Hobbes.Boot.Arrays
import Hobbes.Core.Rearranged

/-!
# Sorting

An array is sorted by a quicksort that works on the array of its positions. The three variants differ in how they
compare elements only.
-/

namespace Hobbes.Boot

open Core

variable {α β κ : Type*}

def swap (xs : List β) (i j : ℕ) : Option (List β) :=
  if i = j then some xs
  else xs[i]?.bind fun t => xs[j]?.bind fun y => (put xs i y).bind fun xs => put xs j t

/-- Partition the positions from `b` up to `e` by the element at the position that is now at `pivot`. Those before `i`
are below it. -/
def partitionStep (lt : α → α → Bool) (xs : List α) (idxs : List ℤ) (pivot b e i : ℕ) : Option (List ℤ × ℕ) :=
  if b = e then (if i < pivot then swap idxs i pivot else some idxs).map fun idxs => (idxs, i)
  else if e < b then none
  else
    (idxs[b]?.bind (index xs)).bind fun x => (idxs[pivot]?.bind (index xs)).bind fun y =>
      if lt x y then
        (swap idxs i b).bind fun idxs => partitionStep lt xs idxs (if i = pivot then b else pivot) (b + 1) e (i + 1)
      else partitionStep lt xs idxs pivot (b + 1) e i
termination_by e - b

/-- Sort a range of the positions; the recursion goes at most `fuel` deep. -/
def quicksort (partition : List ℤ → ℕ → ℕ → ℕ → ℕ → Option (List ℤ × ℕ)) :
    ℕ → List ℤ → ℕ → ℕ → Option (List ℤ)
  | 0, _, _, _ => none
  | fuel + 1, idxs, b, e =>
    let span := e - b
    if span ≤ 1 then some idxs
    else
      (partition idxs (b + span / 2) b e b).bind fun (idxs, j) =>
        (quicksort partition fuel idxs b j).bind fun idxs => quicksort partition fuel idxs (j + 1) e

/-! ### By a predicate -/

def sibrPartition (lt : α → α → Bool) (xs : List α) : List ℤ → ℕ → ℕ → ℕ → ℕ → Option (List ℤ × ℕ) :=
  partitionStep lt xs

def sortiByRange (fuel : ℕ) (lt : α → α → Bool) (xs : List α) (idxs : List ℤ) (b e : ℕ) : Option (List ℤ) :=
  quicksort (sibrPartition lt xs) fuel idxs b e

def sortiBy (fuel : ℕ) (lt : α → α → Bool) (xs : List α) : Option (List ℤ) :=
  (range 0 (xs.length - 1)).bind fun idxs => sortiByRange fuel lt xs idxs 0 xs.length

/-! ### By a projection -/

def siwrPartition (ltk : κ → κ → Bool) (p : α → κ) (xs : List α) :
    List ℤ → ℕ → ℕ → ℕ → ℕ → Option (List ℤ × ℕ) :=
  partitionStep (fun x y => ltk (p x) (p y)) xs

def sortiWithRange (fuel : ℕ) (ltk : κ → κ → Bool) (p : α → κ) (xs : List α) (idxs : List ℤ) (b e : ℕ) :
    Option (List ℤ) :=
  quicksort (siwrPartition ltk p xs) fuel idxs b e

def sortiWith (fuel : ℕ) (ltk : κ → κ → Bool) (p : α → κ) (xs : List α) : Option (List ℤ) :=
  (range 0 (xs.length - 1)).bind fun idxs => sortiWithRange fuel ltk p xs idxs 0 xs.length

/-! ### By the order of the type -/

def sirPartition (lta : α → α → Bool) (xs : List α) : List ℤ → ℕ → ℕ → ℕ → ℕ → Option (List ℤ × ℕ) :=
  partitionStep lta xs

/-- This one counts its depth, up to 8. -/
def sortiRange (lta : α → α → Bool) : ℕ → ℤ → List α → List ℤ → ℕ → ℕ → Option (List ℤ)
  | 0, _, _, _, _, _ => none
  | fuel + 1, lvl, xs, idxs, b, e =>
    let span := e - b
    if span ≤ 1 then some idxs
    else if lvl > 7 then
      (sirPartition lta xs idxs (b + span / 2) b e b).bind fun (idxs, j) =>
        (sortiRange lta fuel lvl xs idxs b j).bind fun idxs => sortiRange lta fuel lvl xs idxs (j + 1) e
    else
      (sirPartition lta xs idxs (b + span / 2) b e b).bind fun (idxs, j) =>
        (sortiRange lta fuel (lvl + 1) xs idxs b j).bind fun idxs =>
          sortiRange lta fuel (lvl + 1) xs idxs (j + 1) e

def sorti (fuel : ℕ) (lta : α → α → Bool) (xs : List α) : Option (List ℤ) :=
  (range 0 (xs.length - 1)).bind fun idxs => sortiRange lta fuel 0 xs idxs 0 xs.length

/-! ### The sorted arrays -/

def sortBy (fuel : ℕ) (lt : α → α → Bool) (xs : List α) : Option (List α) := (sortiBy fuel lt xs).bind (select xs)

def sortWith (fuel : ℕ) (ltk : κ → κ → Bool) (p : α → κ) (xs : List α) : Option (List α) :=
  (sortiWith fuel ltk p xs).bind (select xs)

def sort (fuel : ℕ) (lta : α → α → Bool) (xs : List α) : Option (List α) := (sorti fuel lta xs).bind (select xs)

/-- The depth makes no difference. -/
lemma sortiRange_eq (lta : α → α → Bool) (fuel : ℕ) (lvl : ℤ) (xs : List α) (idxs : List ℤ) (b e : ℕ) :
    sortiRange lta fuel lvl xs idxs b e = quicksort (sirPartition lta xs) fuel idxs b e := by
  induction fuel generalizing lvl idxs b e with
  | zero => rfl
  | succ fuel ih =>
    rw [sortiRange, quicksort]
    simp only [ih, ite_self]

/-! ### One partition -/

lemma swap_spec {xs : List β} {i j : ℕ} (hi : i < xs.length) (hj : j < xs.length) :
    ∃ ys, swap xs i j = some ys ∧ ys.Perm xs ∧
      ∀ k, ys[k]? = if k = i then xs[j]? else if k = j then xs[i]? else xs[k]? := by
  by_cases hij : i = j
  · subst hij
    refine ⟨xs, if_pos rfl, .refl xs, fun k => ?_⟩
    split_ifs with hk
    · rw [hk]
    · rfl
  · refine ⟨(xs.set i xs[j]).set j xs[i], ?_, List.set_set_perm hi hj, fun k => ?_⟩
    · rw [swap, if_neg hij, List.getElem?_eq_getElem hi, List.getElem?_eq_getElem hj, Option.bind_some,
        Option.bind_some, put_of_lt hi, Option.bind_some, put_of_lt (by rwa [List.length_set])]
    · rw [List.getElem?_set, List.getElem?_set, List.length_set, List.getElem?_eq_getElem hi,
        List.getElem?_eq_getElem hj]
      grind

/-- The element at one position is below that at another. -/
def Below (lt : α → α → Bool) (xs : List α) (p q : ℤ) : Prop :=
  ∃ x y, index xs p = some x ∧ index xs q = some y ∧ lt x y

/-- All positions are in bounds. -/
def Valid (xs : List α) (idxs : List ℤ) : Prop := ∀ q ∈ idxs, ∃ x, index xs q = some x

lemma Valid.perm {xs : List α} {idxs idxs' : List ℤ} (h : Valid xs idxs) (hperm : idxs'.Perm idxs) :
    Valid xs idxs' := fun q hq => h q (hperm.subset hq)

/-- What has been read is partitioned: positions from `b₀` up to `i` are below the pivot, and those up to `b` are not.
The pivot is not among the first. -/
structure Partitioning (lt : α → α → Bool) (xs : List α) (b₀ e : ℕ) (pv : ℤ) (idxs : List ℤ) (pivot b i : ℕ) :
    Prop where
  valid : Valid xs idxs
  length : e ≤ idxs.length
  start : b₀ ≤ i
  le : i ≤ b
  le_pivot : i ≤ pivot
  pivot_lt : pivot < e
  pivot_eq : idxs[pivot]? = some pv
  low (k : ℕ) (q : ℤ) (hb : b₀ ≤ k) (hi : k < i) (hq : idxs[k]? = some q) : Below lt xs q pv
  high (k : ℕ) (q : ℤ) (hi : i ≤ k) (hb : k < b) (hq : idxs[k]? = some q) : ¬ Below lt xs q pv

section Order

variable {lt : α → α → Bool} {xs : List α} (hirrefl : ∀ x, lt x x = false)
  (htrans : ∀ x y z, lt x y → lt y z → lt x z)

include hirrefl in
lemma not_below_self (q : ℤ) : ¬ Below lt xs q q := by
  rintro ⟨x, y, hx, hy, hlt⟩
  rw [hx, Option.some.injEq] at hy
  rw [hy, hirrefl] at hlt
  exact Bool.false_ne_true hlt

include htrans in
lemma Below.trans {p q r : ℤ} (hpq : Below lt xs p q) (hqr : Below lt xs q r) : Below lt xs p r := by
  obtain ⟨x, y, hx, hy, hxy⟩ := hpq
  obtain ⟨y', z, hy', hz, hyz⟩ := hqr
  rw [hy, Option.some.injEq] at hy'
  exact ⟨x, z, hx, hz, htrans x y z hxy (hy' ▸ hyz)⟩

namespace Partitioning

variable {b₀ e : ℕ} {pv : ℤ} {idxs : List ℤ} {pivot b i : ℕ}

include hirrefl in
/-- An element below the pivot goes to the end of those before it. -/
lemma step_low (h : Partitioning lt xs b₀ e pv idxs pivot b i) (hb : b < e) {q : ℤ} (hq : idxs[b]? = some q)
    (hlow : Below lt xs q pv) : ∃ idxs', swap idxs i b = some idxs' ∧ RearrangedOn b₀ e idxs idxs' ∧
      Partitioning lt xs b₀ e pv idxs' (if i = pivot then b else pivot) (b + 1) (i + 1) := by
  have hle := h.le
  have hlen := h.length
  have hstart := h.start
  have hpivot := h.le_pivot
  have hpivot' := h.pivot_lt
  obtain ⟨idxs', hswap, hperm, hget⟩ := @swap_spec _ idxs i b (by omega) (by omega)
  -- the pivot is not below itself
  have hne : b ≠ pivot := by
    rintro rfl
    obtain rfl : q = pv := Option.some.inj (hq.symm.trans h.pivot_eq)
    exact not_below_self hirrefl q hlow
  refine ⟨idxs', hswap, .of_swap hperm ⟨hstart, by omega⟩ ⟨by omega, hb⟩ hget, ?_⟩
  refine ⟨h.valid.perm hperm, by rw [hperm.length_eq]; exact hlen, by omega, by omega, ?_, ?_, ?_, ?_, ?_⟩
  · split_ifs <;> omega
  · split_ifs <;> omega
  · by_cases hip : i = pivot
    · rw [if_pos hip, hget, if_neg (by omega), if_pos rfl, hip]
      exact h.pivot_eq
    · rw [if_neg hip, hget, if_neg (by omega), if_neg (by omega)]
      exact h.pivot_eq
  · intro k p hbk hki hp
    rw [hget] at hp
    split_ifs at hp with h1 h2
    · rw [hq, Option.some.injEq] at hp
      exact hp ▸ hlow
    · omega
    · exact h.low k p hbk (by omega) hp
  · intro k p hik hkb hp
    rw [hget] at hp
    split_ifs at hp with h1 h2
    · omega
    · exact h.high i p le_rfl (by omega) hp
    · exact h.high k p (by omega) (by omega) hp

lemma step_high (h : Partitioning lt xs b₀ e pv idxs pivot b i) {q : ℤ} (hq : idxs[b]? = some q)
    (hhigh : ¬ Below lt xs q pv) : Partitioning lt xs b₀ e pv idxs pivot (b + 1) i where
  valid := h.valid
  length := h.length
  start := h.start
  le := h.le.trans (Nat.le_succ b)
  le_pivot := h.le_pivot
  pivot_lt := h.pivot_lt
  pivot_eq := h.pivot_eq
  low := h.low
  high k p hik hkb hp := by
    rcases Nat.lt_succ_iff_lt_or_eq.mp hkb with hlt | rfl
    · exact h.high k p hik hlt hp
    · rw [hq, Option.some.injEq] at hp
      exact hp ▸ hhigh

end Partitioning

/-- The pivot has its final place. -/
structure Partitioned (lt : α → α → Bool) (xs : List α) (b e : ℕ) (idxs : List ℤ) (pv : ℤ) (j : ℕ) : Prop where
  le : b ≤ j
  lt_end : j < e
  pivot_eq : idxs[j]? = some pv
  low (k : ℕ) (q : ℤ) (hb : b ≤ k) (hj : k < j) (hq : idxs[k]? = some q) : Below lt xs q pv
  high (k : ℕ) (q : ℤ) (hj : j + 1 ≤ k) (he : k < e) (hq : idxs[k]? = some q) : ¬ Below lt xs q pv

/-- At the end the pivot changes places with the first element that is not below it. -/
lemma Partitioning.finish {b₀ e : ℕ} {pv : ℤ} {idxs : List ℤ} {pivot i : ℕ}
    (h : Partitioning lt xs b₀ e pv idxs pivot e i) :
    ∃ idxs', (if i < pivot then swap idxs i pivot else some idxs) = some idxs' ∧ RearrangedOn b₀ e idxs idxs' ∧
      Partitioned lt xs b₀ e idxs' pv i := by
  have hlen := h.length
  have hpivot := h.pivot_lt
  rcases Nat.eq_or_lt_of_le h.le_pivot with rfl | hlt
  · rw [if_neg (lt_irrefl i)]
    exact ⟨idxs, rfl, .refl b₀ e idxs, h.start, hpivot, h.pivot_eq, h.low,
      fun k q hj he hq => h.high k q (by omega) he hq⟩
  · obtain ⟨idxs', hswap, hperm, hget⟩ := @swap_spec _ idxs i pivot (by omega) (by omega)
    have hstart := h.start
    rw [if_pos hlt]
    refine ⟨idxs', hswap, .of_swap hperm ⟨hstart, by omega⟩ ⟨by omega, hpivot⟩ hget, hstart, by omega, ?_, ?_, ?_⟩
    · rw [hget, if_pos rfl]
      exact h.pivot_eq
    · intro k q hb hj hq
      rw [hget, if_neg (by omega), if_neg (by omega)] at hq
      exact h.low k q hb hj hq
    · intro k q hj he hq
      rw [hget, if_neg (by omega)] at hq
      split_ifs at hq
      · exact h.high i q le_rfl (by omega) hq
      · exact h.high k q (by omega) he hq

include hirrefl in
lemma partitionStep_spec {b₀ e : ℕ} {pv : ℤ} {idxs : List ℤ} {pivot b i : ℕ}
    (h : Partitioning lt xs b₀ e pv idxs pivot b i) (hb : b ≤ e) :
    ∃ idxs' j, partitionStep lt xs idxs pivot b e i = some (idxs', j) ∧ RearrangedOn b₀ e idxs idxs' ∧
      Partitioned lt xs b₀ e idxs' pv j := by
  rcases Nat.eq_or_lt_of_le hb with rfl | hlt
  · obtain ⟨idxs', heq, hre, hpart⟩ := h.finish
    exact ⟨idxs', i, by rw [partitionStep, if_pos rfl, heq]; rfl, hre, hpart⟩
  · obtain ⟨q, hq⟩ : ∃ q, idxs[b]? = some q := ⟨_, List.getElem?_eq_getElem (hlt.trans_le h.length)⟩
    obtain ⟨x, hx⟩ := h.valid q (List.mem_of_getElem? hq)
    obtain ⟨y, hy⟩ := h.valid pv (List.mem_of_getElem? h.pivot_eq)
    rw [partitionStep, if_neg (by omega), if_neg (by omega), hq, h.pivot_eq, Option.bind_some, Option.bind_some, hx,
      hy, Option.bind_some, Option.bind_some]
    by_cases hxy : lt x y
    · obtain ⟨idxs₁, hswap, hre, h₁⟩ := h.step_low hirrefl hlt hq ⟨x, y, hx, hy, hxy⟩
      obtain ⟨idxs₂, j, heq, hre', hpart⟩ := partitionStep_spec h₁ hlt
      exact ⟨idxs₂, j, by rw [if_pos hxy, hswap, Option.bind_some, heq], hre.trans hre', hpart⟩
    · have hhigh : ¬ Below lt xs q pv := by
        rintro ⟨x', y', hx', hy', hlt'⟩
        rw [hx, Option.some.injEq] at hx'
        rw [hy, Option.some.injEq] at hy'
        exact hxy (hx' ▸ hy' ▸ hlt')
      rw [if_neg hxy]
      exact partitionStep_spec (h.step_high hq hhigh) hlt
termination_by e - b

/-! ### The whole recursion -/

/-- No later position holds an element below an earlier one. -/
def SortedOn (lt : α → α → Bool) (xs : List α) (b e : ℕ) (idxs : List ℤ) : Prop :=
  ∀ k l p q, b ≤ k → k < l → l < e → idxs[k]? = some p → idxs[l]? = some q → ¬ Below lt xs q p

lemma SortedOn.of_outside {b e b' e' : ℕ} {idxs idxs' : List ℤ} (h : SortedOn lt xs b e idxs)
    (hre : RearrangedOn b' e' idxs idxs') (hout : e ≤ b') : SortedOn lt xs b e idxs' := by
  intro k l p q hbk hkl hle hp hq
  rw [hre.outside (by omega)] at hp hq
  exact h k l p q hbk hkl hle hp hq

include hirrefl htrans in
/-- Two sorted parts on both sides of the pivot. -/
lemma Partitioned.sortedOn {b e : ℕ} {idxs : List ℤ} {pv : ℤ} {j : ℕ} (h : Partitioned lt xs b e idxs pv j)
    (hleft : SortedOn lt xs b j idxs) (hright : SortedOn lt xs (j + 1) e idxs) : SortedOn lt xs b e idxs := by
  intro k l p q hbk hkl hle hp hq hbelow
  have hkj : k < j ∨ k = j ∨ j < k := lt_trichotomy k j
  rcases hkj with hkj | rfl | hkj
  · have hlow := h.low k p hbk hkj hp
    rcases lt_trichotomy l j with hlj | rfl | hlj
    · exact hleft k l p q hbk hkl hlj hp hq hbelow
    · obtain rfl : q = pv := Option.some.inj (hq.symm.trans h.pivot_eq)
      exact not_below_self hirrefl q (Below.trans htrans hbelow hlow)
    · exact h.high l q hlj hle hq (Below.trans htrans hbelow hlow)
  · obtain rfl : p = pv := Option.some.inj (hp.symm.trans h.pivot_eq)
    exact h.high l q hkl hle hq hbelow
  · exact hright k l p q hkj hkl hle hp hq hbelow

include hirrefl htrans in
lemma quicksort_spec {fuel b e : ℕ} {idxs : List ℤ} (hfuel : e - b < fuel) (hlen : e ≤ idxs.length)
    (hvalid : Valid xs idxs) : ∃ idxs', quicksort (partitionStep lt xs) fuel idxs b e = some idxs' ∧
      RearrangedOn b e idxs idxs' ∧ SortedOn lt xs b e idxs' := by
  induction fuel generalizing b e idxs with
  | zero => exact absurd hfuel (Nat.not_lt_zero _)
  | succ fuel ih =>
    by_cases hspan : e - b ≤ 1
    · refine ⟨idxs, by rw [quicksort, if_pos hspan], .refl b e idxs, fun k l p q hbk hkl hle => ?_⟩
      omega
    · obtain ⟨pv, hpv⟩ : ∃ pv, idxs[b + (e - b) / 2]? = some pv := ⟨_, List.getElem?_eq_getElem (by omega)⟩
      have hstart : Partitioning lt xs b e pv idxs (b + (e - b) / 2) b b :=
        ⟨hvalid, hlen, le_rfl, le_rfl, by omega, by omega, hpv, fun k q hb hi => by omega, fun k q hi hb => by omega⟩
      obtain ⟨idxs₁, j, hpart, hre₁, h₁⟩ := partitionStep_spec hirrefl hstart (by omega)
      have hbj := h₁.le
      have hje := h₁.lt_end
      have hlen₁ := hre₁.perm.length_eq
      obtain ⟨idxs₂, hsort₂, hre₂, hleft⟩ := @ih b j idxs₁ (by omega) (by omega) (hvalid.perm hre₁.perm)
      have hlen₂ := hre₂.perm.length_eq
      obtain ⟨idxs₃, hsort₃, hre₃, hright⟩ := @ih (j + 1) e idxs₂ (by omega) (by omega)
        (hvalid.perm (hre₂.perm.trans hre₁.perm))
      refine ⟨idxs₃, ?_, hre₁.trans ((hre₂.mono le_rfl hje.le).trans (hre₃.mono (by omega) le_rfl)), ?_⟩
      · simp only [quicksort, if_neg hspan, hpart, hsort₂, hsort₃, Option.bind_some]
      · -- sorting a part leaves it on its side of the pivot
        have h₃ : Partitioned lt xs b e idxs₃ pv j := by
          refine ⟨hbj, hje, ?_, ?_, ?_⟩
          · rw [hre₃.outside (by omega), hre₂.outside (by omega)]
            exact h₁.pivot_eq
          · exact hre₃.forall_outside (by omega) (hre₂.forall_inside le_rfl le_rfl h₁.low)
          · exact hre₃.forall_inside le_rfl le_rfl (hre₂.forall_outside (by omega) h₁.high)
        exact h₃.sortedOn hirrefl htrans (hleft.of_outside hre₃ (by omega)) hright

end Order

/-! ### The sorted arrays -/

/-- `ys` has the elements of `xs`, and no later one is below an earlier one. -/
structure Sorts (lt : α → α → Bool) (xs ys : List α) : Prop where
  perm : ys.Perm xs
  sorted : ys.Pairwise fun x y => ¬ lt y x

/-- The positions of `xs`, in some order. -/
def Permutes (xs : List α) (idxs : List ℤ) : Prop := idxs.Perm ((List.range xs.length).map fun n : ℕ => (n : ℤ))

lemma map_index_range (xs : List α) :
    ((List.range xs.length).map fun n : ℕ => (n : ℤ)).map (index xs) = xs.map some := by
  refine List.ext_getElem (by simp) fun n hn hn' => ?_
  rw [List.length_map] at hn'
  simp [index_natCast, List.getElem?_eq_getElem hn']

lemma Valid.exists_map {xs : List α} {idxs : List ℤ} (h : Valid xs idxs) :
    ∃ ys : List α, idxs.map (index xs) = ys.map some := by
  induction idxs with
  | nil => exact ⟨[], rfl⟩
  | cons q idxs ih =>
    obtain ⟨y, hy⟩ := h q List.mem_cons_self
    obtain ⟨ys, hys⟩ := ih fun q hq => h q (List.mem_cons_of_mem _ hq)
    exact ⟨y :: ys, by rw [List.map_cons, List.map_cons, hy, hys]⟩

lemma Permutes.valid {xs : List α} {idxs : List ℤ} (h : Permutes xs idxs) : Valid xs idxs := fun q hq => by
  obtain ⟨n, hn, rfl⟩ := List.mem_map.mp (h.subset hq)
  exact ⟨_, by rw [index_natCast, List.getElem?_eq_getElem (List.mem_range.mp hn)]⟩

lemma Permutes.exists_select {xs : List α} {idxs : List ℤ} (h : Permutes xs idxs) :
    ∃ ys : List α, idxs.map (index xs) = ys.map some ∧ ys.Perm xs := by
  obtain ⟨ys, hys⟩ := h.valid.exists_map
  have hperm : (ys.map some).Perm (xs.map some) := by
    rw [← hys, ← map_index_range]
    exact h.map _
  exact ⟨ys, hys, (List.map_perm_map_iff fun _ _ => Option.some.inj).mp hperm⟩

/-- What is selected by sorted positions is sorted. -/
lemma SortedOn.pairwise {lt : α → α → Bool} {xs ys : List α} {idxs : List ℤ}
    (h : SortedOn lt xs 0 idxs.length idxs) (hys : idxs.map (index xs) = ys.map some) :
    ys.Pairwise fun x y => ¬ lt y x := by
  have hat {k : ℕ} {y : α} (hy : ys[k]? = some y) : ∃ q, idxs[k]? = some q ∧ index xs q = some y := by
    have hk := congrArg (fun l => l[k]?) hys
    simp only [List.getElem?_map, hy, Option.map_some] at hk
    exact Option.map_eq_some_iff.mp hk
  rw [List.pairwise_iff_getElem]
  intro k l hk hl hkl hlt
  obtain ⟨p, hp, hpx⟩ := hat (List.getElem?_eq_getElem hk)
  obtain ⟨q, hq, hqy⟩ := hat (List.getElem?_eq_getElem hl)
  exact h k l p q (Nat.zero_le k) hkl (List.getElem?_eq_some_iff.mp hq).1 hp hq ⟨_, _, hqy, hpx, hlt⟩

/-- A strict order, as a function of the program. -/
structure StrictOrder (lt : α → α → Bool) : Prop where
  irrefl (x : α) : lt x x = false
  trans (x y z : α) (hxy : lt x y) (hyz : lt y z) : lt x z

lemma StrictOrder.comap {ltk : κ → κ → Bool} (h : StrictOrder ltk) (p : α → κ) :
    StrictOrder fun x y => ltk (p x) (p y) := ⟨fun x => h.irrefl (p x), fun x y z => h.trans (p x) (p y) (p z)⟩

lemma quicksort_positions {lt : α → α → Bool} (hlt : StrictOrder lt) (xs : List α) {fuel : ℕ}
    (hfuel : xs.length < fuel) :
    ∃ idxs ys, ((range 0 (xs.length - 1)).bind fun idxs => quicksort (partitionStep lt xs) fuel idxs 0 xs.length) =
      some idxs ∧ Permutes xs idxs ∧ select xs idxs = some ys ∧ Sorts lt xs ys := by
  have hstart : Permutes xs ((List.range xs.length).map fun n : ℕ => (n : ℤ)) := .refl _
  have hlen : ((List.range xs.length).map fun n : ℕ => (n : ℤ)).length = xs.length := by
    rw [List.length_map, List.length_range]
  obtain ⟨idxs, hsort, hre, hsorted⟩ := @quicksort_spec _ lt xs hlt.irrefl hlt.trans fuel 0 xs.length _ hfuel hlen.ge
    hstart.valid
  have hperm : Permutes xs idxs := hre.perm
  obtain ⟨ys, hys, hysperm⟩ := hperm.exists_select
  have hidxs : xs.length = idxs.length := by rw [hperm.length_eq, hlen]
  rw [range_length, Option.bind_some]
  exact ⟨idxs, ys, hsort, hperm, select_eq hys, hysperm, (hidxs ▸ hsorted).pairwise hys⟩

/-- Sorting ends and stays in bounds, and gives the elements in order. -/
theorem sort_sorts {lt : α → α → Bool} {ltk : κ → κ → Bool} (hlt : StrictOrder lt) (hltk : StrictOrder ltk)
    (p : α → κ) (xs : List α) {fuel : ℕ} (hfuel : xs.length < fuel) :
    (∃ ys, sortBy fuel lt xs = some ys ∧ Sorts lt xs ys) ∧
    (∃ ys, sortWith fuel ltk p xs = some ys ∧ Sorts (fun x y => ltk (p x) (p y)) xs ys) ∧
    (∃ ys, sort fuel lt xs = some ys ∧ Sorts lt xs ys) ∧
    ∃ idxs ys, sorti fuel lt xs = some idxs ∧ Permutes xs idxs ∧ select xs idxs = some ys ∧ Sorts lt xs ys := by
  obtain ⟨idxs, ys, hidxs, hperm, hselect, hsorts⟩ := quicksort_positions hlt xs hfuel
  obtain ⟨kidxs, kys, hkidxs, _, hkselect, hksorts⟩ := quicksort_positions (hltk.comap p) xs hfuel
  have hsorti : sorti fuel lt xs = some idxs := by
    simp only [sorti, sortiRange_eq]
    exact hidxs
  refine ⟨⟨ys, ?_, hsorts⟩, ⟨kys, ?_, hksorts⟩, ⟨ys, ?_, hsorts⟩, idxs, ys, hsorti, hperm, hselect, hsorts⟩
  · rw [sortBy, show sortiBy fuel lt xs = some idxs from hidxs, Option.bind_some, hselect]
  · rw [sortWith, show sortiWith fuel ltk p xs = some kidxs from hkidxs, Option.bind_some, hkselect]
  · rw [sort, hsorti, Option.bind_some, hselect]

/-- Equal elements, and keys that are equal. -/
theorem sort_sorts_bool :
    StrictOrder (fun x y : Bool => !x && y) ∧ [true, false, true].length < 4 ∧
      (∃ ys, sortBy 4 (fun x y : Bool => !x && y) [true, false, true] = some ys ∧
        Sorts (fun x y : Bool => !x && y) [true, false, true] ys) := by
  have hlt : StrictOrder (fun x y : Bool => !x && y) := ⟨by decide, by decide⟩
  exact ⟨hlt, by decide, (sort_sorts hlt hlt not [true, false, true] (by decide)).1⟩

example : sort 5 (fun x y => decide (x < y)) [3, 1, 2, 1] = some [1, 1, 2, 3] := by decide +kernel

end Hobbes.Boot
