import Hobbes.Lang.OrdLaws

/-!
# Binary search

The search that the interpreted match tables are read with. An index behind the end of the array has
no result.
-/

namespace Hobbes.Match

open Lang

variable {α β : Type}

/-- The first of `c` elements from `i` on that is not below `x`. -/
def lowerBoundFi (o : Ops β) (vs : List α) (vtx : α → β) (x : β) (i c : ℕ) : Option ℕ :=
  if c = 0 then some i
  else
    let s := c / 2
    let ii := i + s
    vs[ii]?.bind fun v =>
      if o.lt (vtx v) x then lowerBoundFi o vs vtx x (ii + 1) (c - (s + 1))
      else lowerBoundFi o vs vtx x i s
termination_by c
decreasing_by all_goals omega

/-- The length of the array if there is no such element. -/
def bsearch (o : Ops β) (vs : List α) (vtx : α → β) (x : β) : Option ℕ := do
  let i ← lowerBoundFi o vs vtx x 0 vs.length
  if i < vs.length then
    let v ← vs[i]?
    some (if o.eq (vtx v) x then i else vs.length)
  else some vs.length

variable {o : Ops β} {vs : List α} {vtx : α → β} {x : β}

/-- The keys are in ascending order, and no two of them are equal. -/
def Ascending (o : Ops β) (vs : List α) (vtx : α → β) : Prop :=
  vs.Pairwise fun v w => o.lt (vtx v) (vtx w)

/-- What is below `x` is what stands before `k`. -/
structure Splits (o : Ops β) (vs : List α) (vtx : α → β) (x : β) (k : ℕ) : Prop where
  le_length : k ≤ vs.length
  lt_of_lt : ∀ j < k, ∀ v ∈ vs[j]?, o.lt (vtx v) x
  not_lt_of_le : ∀ j, k ≤ j → ∀ v ∈ vs[j]?, o.lt (vtx v) x = false

lemma Ascending.lt (h : Ascending o vs vtx) {i j : ℕ} {v w : α} (hij : i < j) (hv : vs[i]? = some v)
    (hw : vs[j]? = some w) : o.lt (vtx v) (vtx w) := by
  obtain ⟨hi, rfl⟩ := List.getElem?_eq_some_iff.mp hv
  obtain ⟨hj, rfl⟩ := List.getElem?_eq_some_iff.mp hw
  exact List.pairwise_iff_getElem.mp h i j hi hj hij

/-- The invariant of the search: `x` has its place between `i` and `i + c`. -/
lemma exists_lowerBoundFi (ho : o.Ordered) (hvs : Ascending o vs vtx) (c : ℕ) {i : ℕ}
    (hic : i + c ≤ vs.length) (hbelow : ∀ j < i, ∀ v ∈ vs[j]?, o.lt (vtx v) x)
    (habove : ∀ j, i + c ≤ j → ∀ v ∈ vs[j]?, o.lt (vtx v) x = false) :
    ∃ k, lowerBoundFi o vs vtx x i c = some k ∧ Splits o vs vtx x k := by
  induction c using Nat.strong_induction_on generalizing i with
  | _ c ih =>
    rw [lowerBoundFi]
    by_cases hc : c = 0
    · subst hc
      exact ⟨i, if_pos rfl, hic, hbelow, habove⟩
    · have hlt : i + c / 2 < vs.length := by omega
      obtain ⟨v, hv⟩ : ∃ v, vs[i + c / 2]? = some v := ⟨_, List.getElem?_eq_getElem hlt⟩
      simp only [hc, if_false, hv, Option.bind_some]
      by_cases hx : o.lt (vtx v) x = true
      · rw [if_pos hx]
        refine ih _ (by omega) (by omega) (fun j hj w hw => ?_) fun j hj => habove j (by omega)
        rcases Nat.lt_succ_iff_lt_or_eq.mp hj with hlt | rfl
        · exact ho.total.trans _ _ _ (hvs.lt hlt hw hv) hx
        · rw [Option.mem_def, hv, Option.some.injEq] at hw
          rwa [← hw]
      · rw [if_neg hx]
        rw [Bool.not_eq_true] at hx
        refine ih _ (by omega) (by omega) hbelow fun j hj w hw => ?_
        rcases Nat.lt_or_eq_of_le hj with hlt | rfl
        · refine Bool.eq_false_iff.mpr fun hwx => ?_
          have := ho.total.trans _ _ _ (hvs.lt hlt hv hw) hwx
          simp [hx] at this
        · rw [Option.mem_def, hv, Option.some.injEq] at hw
          rwa [← hw]

lemma exists_lowerBoundFi_zero (ho : o.Ordered) (hvs : Ascending o vs vtx) (x : β) :
    ∃ k, lowerBoundFi o vs vtx x 0 vs.length = some k ∧ Splits o vs vtx x k :=
  exists_lowerBoundFi ho hvs vs.length (Nat.zero_add _).le (by simp) fun j hj v hv => by
    rw [Nat.zero_add] at hj
    rw [List.getElem?_eq_none hj] at hv
    cases hv

lemma bsearch_eq_length (ho : o.Ordered) (hvs : Ascending o vs vtx) (h : ∀ v ∈ vs, vtx v ≠ x) :
    bsearch o vs vtx x = some vs.length := by
  obtain ⟨k, hk, -⟩ := exists_lowerBoundFi_zero ho hvs x
  simp only [bsearch, hk, Option.bind_eq_bind, Option.bind_some]
  split
  · next hlt =>
    have hne := mt (ho.eq_iff (vtx vs[k]) x).mp (h _ (List.getElem_mem hlt))
    simp [List.getElem?_eq_getElem hlt, hne]
  · rfl

lemma bsearch_eq_some (ho : o.Ordered) (hvs : Ascending o vs vtx) {j : ℕ} {v : α}
    (hv : vs[j]? = some v) (hx : vtx v = x) : bsearch o vs vtx x = some j := by
  obtain ⟨k, hk, hsplits⟩ := exists_lowerBoundFi_zero ho hvs x
  obtain ⟨hj, rfl⟩ := List.getElem?_eq_some_iff.mp hv
  have hkj : k ≤ j := by
    by_contra hlt
    have := hsplits.lt_of_lt j (by omega) _ hv
    rw [hx, ho.irrefl] at this
    cases this
  have hjk : j ≤ k := by
    by_contra hlt
    have hw := List.getElem?_eq_getElem (by omega : k < vs.length)
    have := hvs.lt (by omega) hw hv
    rw [hx, hsplits.not_lt_of_le k le_rfl _ hw] at this
    cases this
  obtain rfl : k = j := le_antisymm hkj hjk
  simp [bsearch, hk, hj, (ho.eq_iff (vtx vs[k]) x).mpr hx]

end Hobbes.Match
