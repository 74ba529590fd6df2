import Mathlib.Data.Finset.Card
import Mathlib.Data.List.Nodup
import Mathlib.Logic.Relation

/-!
# Depth-first traversals

A traversal marks an element, goes on with each of its successors that is not marked yet, and then leaves it.
What it does on leaving is a fold over the elements in the order in which they are left.
-/

namespace Core.DepthFirst

open Relation

variable {α σ : Type*} {succ : α → List α}

/-! ### What is marked and what is left -/

/-- From one state to another, new elements have been marked and left. The last one that was left comes first. -/
def Extends (st st' : List α × List α) : Prop :=
  ∃ new, st'.2 = new ++ st.2 ∧ new.Nodup ∧ (∀ x ∈ new, x ∉ st.1) ∧ ∀ x, x ∈ st'.1 ↔ x ∈ st.1 ∨ x ∈ new

lemma Extends.refl (st : List α × List α) : Extends st st :=
  ⟨[], rfl, .nil, fun _ hx => absurd hx List.not_mem_nil, fun x => by simp⟩

lemma Extends.trans {st st' st'' : List α × List α} (h : Extends st st') (h' : Extends st' st'') :
    Extends st st'' := by
  obtain ⟨new, hleft, hnew, hfresh, hmarks⟩ := h
  obtain ⟨new', hleft', hnew', hfresh', hmarks'⟩ := h'
  refine ⟨new' ++ new, by rw [hleft', hleft, List.append_assoc], ?_, ?_, fun x => ?_⟩
  · refine List.nodup_append.2 ⟨hnew', hnew, fun x hx y hy hxy => ?_⟩
    subst hxy
    exact hfresh' x hx ((hmarks x).2 (.inr hy))
  · intro x hx
    rcases List.mem_append.1 hx with hx | hx
    · exact fun hm => hfresh' x hx ((hmarks x).2 (.inl hm))
    · exact hfresh x hx
  · rw [hmarks', hmarks, List.mem_append, or_assoc, @or_comm (x ∈ new)]

lemma Extends.mem {st st' : List α × List α} (h : Extends st st') {x : α} (hx : x ∈ st.1) : x ∈ st'.1 := by
  obtain ⟨new, -, -, -, hmarks⟩ := h
  exact (hmarks x).2 (.inl hx)

lemma Extends.leave {s : α} {st st' : List α × List α} (hs : s ∉ st.1) (h : Extends (s :: st.1, st.2) st') :
    Extends st (st'.1, s :: st'.2) := by
  obtain ⟨new, hleft, hnew, hfresh, hmarks⟩ := h
  refine ⟨s :: new, by rw [hleft]; rfl, ?_, ?_, fun x => ?_⟩
  · exact List.nodup_cons.2 ⟨fun hmem => hfresh s hmem List.mem_cons_self, hnew⟩
  · exact List.forall_mem_cons.2 ⟨hs, fun x hx hm => hfresh x hx (List.mem_cons_of_mem s hm)⟩
  · rw [hmarks, List.mem_cons, List.mem_cons, or_assoc, or_left_comm]

/-- A traversal of those elements of a list that are not marked when their turn comes. -/
inductive Visits (succ : α → List α) : List α → List α × List α → List α × List α → Prop
  | nil (st : List α × List α) : Visits succ [] st st
  | skip {t : α} {ts : List α} {st st' : List α × List α} (ht : t ∈ st.1) (h : Visits succ ts st st') :
      Visits succ (t :: ts) st st'
  | visit {t : α} {ts : List α} {st st₁ st' : List α × List α} (ht : t ∉ st.1)
      (h₁ : Visits succ (succ t) (t :: st.1, st.2) st₁) (h : Visits succ ts (st₁.1, t :: st₁.2) st') :
      Visits succ (t :: ts) st st'

lemma Visits.extends {ts : List α} {st st' : List α × List α} (h : Visits succ ts st st') : Extends st st' := by
  induction h with
  | nil st => exact .refl st
  | skip _ _ ih => exact ih
  | visit ht _ _ ih₁ ih => exact (ih₁.leave ht).trans ih

lemma Visits.unique {ts : List α} {st st' st'' : List α × List α} (h : Visits succ ts st st')
    (h' : Visits succ ts st st'') : st' = st'' := by
  induction h generalizing st'' with
  | nil =>
    cases h'
    rfl
  | skip ht _ ih =>
    cases h' with
    | skip _ h => exact ih h
    | visit hnot => exact absurd ht hnot
  | visit ht _ _ ih₁ ih =>
    cases h' with
    | skip hmem => exact absurd hmem ht
    | visit _ h₁ h =>
      obtain rfl := ih₁ h₁
      exact ih h

lemma Visits.mem {ts : List α} {st st' : List α × List α} (h : Visits succ ts st st') : ∀ t ∈ ts, t ∈ st'.1 := by
  induction h with
  | nil => exact fun _ ht => absurd ht List.not_mem_nil
  | skip ht h ih => exact List.forall_mem_cons.2 ⟨h.extends.mem ht, ih⟩
  | visit _ h₁ h _ ih =>
    exact List.forall_mem_cons.2 ⟨h.extends.mem (h₁.extends.mem List.mem_cons_self), ih⟩

/-! ### Edges back -/

/-- An edge goes to an element that was left before, or there is a way back. -/
def BackEdges (succ : α → List α) (left : List α) : Prop :=
  ∀ pre s post, left = pre ++ s :: post → ∀ t ∈ succ s, t ∈ post ∨ ReflTransGen (fun a b => b ∈ succ a) t s

lemma BackEdges.cons {left : List α} (h : BackEdges succ left) {s : α}
    (hs : ∀ t ∈ succ s, t ∈ left ∨ ReflTransGen (fun a b => b ∈ succ a) t s) : BackEdges succ (s :: left) := by
  intro pre x post heq
  cases pre with
  | nil =>
    obtain ⟨rfl, rfl⟩ := List.cons.inj heq
    exact hs
  | cons y pre => exact h pre x post (List.cons.inj heq).2

/-- What is marked but not left yet has a way to all that is visited next. -/
lemma Visits.backEdges {ts : List α} {st st' : List α × List α} (h : Visits succ ts st st')
    (hopen : ∀ x ∈ st.1, x ∉ st.2 → ∀ t ∈ ts, ReflTransGen (fun a b => b ∈ succ a) x t)
    (hst : BackEdges succ st.2) : BackEdges succ st'.2 := by
  induction h with
  | nil => exact hst
  | skip _ _ ih => exact ih (fun x hx hx' t ht => hopen x hx hx' t (List.mem_cons_of_mem _ ht)) hst
  | @visit s ts st st₁ st' hs h₁ h ih₁ ih =>
    have hopen₁ : ∀ x ∈ s :: st.1, x ∉ st.2 → ∀ t ∈ succ s, ReflTransGen (fun a b => b ∈ succ a) x t := by
      intro x hx hx' t ht
      rcases List.mem_cons.1 hx with rfl | hx
      · exact .single ht
      · exact (hopen x hx hx' s List.mem_cons_self).tail ht
    obtain ⟨new, hleft, -, -, hmarks⟩ := h₁.extends
    have hback : BackEdges succ (s :: st₁.2) := by
      refine (ih₁ hopen₁ hst).cons fun t ht => ?_
      -- A successor has been left, or it is one of those that are still open.
      rcases (hmarks t).1 (h₁.mem t ht) with hm | hnew
      · by_cases hleft' : t ∈ st.2
        · exact .inl (by rw [hleft]; exact List.mem_append_right _ hleft')
        · rcases List.mem_cons.1 hm with rfl | hm
          · exact .inr .refl
          · exact .inr (hopen t hm hleft' s List.mem_cons_self)
      · exact .inl (by rw [hleft]; exact List.mem_append_left _ hnew)
    refine ih (fun x hx hx' t ht => ?_) hback
    rcases (hmarks x).1 hx with hm | hnew
    · rcases List.mem_cons.1 hm with rfl | hm
      · exact absurd List.mem_cons_self hx'
      · refine hopen x hm (fun hmem => hx' ?_) t (List.mem_cons_of_mem _ ht)
        exact List.mem_cons_of_mem _ (by rw [hleft]; exact List.mem_append_right _ hmem)
    · exact absurd (List.mem_cons_of_mem _ (by rw [hleft]; exact List.mem_append_left _ hnew)) hx'

/-! ### Traversals with a bound on their depth -/

section Traversal

variable [DecidableEq α]

/-- Visit an element that is not marked, with the marked ones and what has been made on leaving others. -/
def visit (succ : α → List α) (leave : α → σ → σ) : ℕ → α → List α × σ → Option (List α × σ)
  | 0, _, _ => none
  | fuel + 1, s, st =>
    ((succ s).foldlM (fun st t => if t ∈ st.1 then some st else visit succ leave fuel t st)
      (s :: st.1, st.2)).map fun st => (st.1, leave s st.2)

def visitAll (succ : α → List α) (leave : α → σ → σ) (fuel : ℕ) (ts : List α) (st : List α × σ) :
    Option (List α × σ) :=
  ts.foldlM (fun st t => if t ∈ st.1 then some st else visit succ leave fuel t st) st

lemma visit_succ (leave : α → σ → σ) (fuel : ℕ) (s : α) (st : List α × σ) :
    visit succ leave (fuel + 1) s st =
      (visitAll succ leave fuel (succ s) (s :: st.1, st.2)).map fun st => (st.1, leave s st.2) := rfl

lemma visitAll_cons (leave : α → σ → σ) (fuel : ℕ) (t : α) (ts : List α) (st : List α × σ) :
    visitAll succ leave fuel (t :: ts) st =
      (if t ∈ st.1 then some st else visit succ leave fuel t st).bind (visitAll succ leave fuel ts) := rfl

section Fuel

variable (leave : α → σ → σ) (x : σ) {U : Finset α}

/-- The visit of an element succeeds, and leaves what a traversal of its successors leaves, and it. -/
def VisitOk (succ : α → List α) (fuel : ℕ) (t : α) (st : List α × List α) : Prop :=
  ∃ st₁, Visits succ (succ t) (t :: st.1, st.2) st₁ ∧
    visit succ leave fuel t (st.1, st.2.foldr leave x) = some (st₁.1, (t :: st₁.2).foldr leave x)

lemma exists_visitAll_of {fuel : ℕ}
    (hvisit : ∀ t ∈ U, ∀ st : List α × List α, t ∉ st.1 → (U.filter (· ∉ st.1)).card ≤ fuel →
      VisitOk leave x succ fuel t st) {ts : List α} (hts : ∀ t ∈ ts, t ∈ U) (st : List α × List α)
    (hfuel : (U.filter (· ∉ st.1)).card ≤ fuel) :
    ∃ st', Visits succ ts st st' ∧
      visitAll succ leave fuel ts (st.1, st.2.foldr leave x) = some (st'.1, st'.2.foldr leave x) := by
  induction ts generalizing st with
  | nil => exact ⟨st, .nil st, rfl⟩
  | cons t ts ih =>
    rw [List.forall_mem_cons] at hts
    rw [visitAll_cons]
    by_cases ht : t ∈ st.1
    · obtain ⟨st', hvisits, hrun⟩ := ih hts.2 st hfuel
      exact ⟨st', .skip ht hvisits, by rw [if_pos ht]; exact hrun⟩
    · obtain ⟨st₁, h₁, hrun₁⟩ := hvisit t hts.1 st ht hfuel
      have hcard : (U.filter (· ∉ st₁.1)).card ≤ fuel := by
        refine Nat.le_trans (Finset.card_le_card fun y hy => ?_) hfuel
        rw [Finset.mem_filter] at hy ⊢
        exact ⟨hy.1, fun hy' => hy.2 (h₁.extends.mem (List.mem_cons_of_mem t hy'))⟩
      obtain ⟨st', hvisits, hrun⟩ := ih hts.2 (st₁.1, t :: st₁.2) hcard
      exact ⟨st', .visit ht h₁ hvisits, by rw [if_neg ht, hrun₁]; exact hrun⟩

lemma visitOk (hU : ∀ s ∈ U, ∀ t ∈ succ s, t ∈ U) {fuel : ℕ} {t : α} (ht : t ∈ U) {st : List α × List α}
    (hst : t ∉ st.1) (hfuel : (U.filter (· ∉ st.1)).card ≤ fuel) : VisitOk leave x succ fuel t st := by
  induction fuel generalizing t st with
  | zero =>
    have hmem : t ∈ U.filter (· ∉ st.1) := Finset.mem_filter.2 ⟨ht, hst⟩
    have hpos := Finset.card_pos.2 ⟨t, hmem⟩
    omega
  | succ fuel ih =>
    have hsub : U.filter (· ∉ t :: st.1) ⊂ U.filter (· ∉ st.1) := by
      refine Finset.ssubset_iff_of_subset (fun y hy => ?_) |>.2 ⟨t, Finset.mem_filter.2 ⟨ht, hst⟩, ?_⟩
      · rw [Finset.mem_filter] at hy ⊢
        exact ⟨hy.1, fun hy' => hy.2 (List.mem_cons_of_mem t hy')⟩
      · exact fun hmem => (Finset.mem_filter.1 hmem).2 List.mem_cons_self
    have hcard : (U.filter (· ∉ t :: st.1)).card ≤ fuel :=
      Nat.le_of_lt_succ (Nat.lt_of_lt_of_le (Finset.card_lt_card hsub) hfuel)
    obtain ⟨st₁, h₁, hrun⟩ := exists_visitAll_of leave x (fun t ht st hst hfuel => ih ht hst hfuel) (hU t ht)
      (t :: st.1, st.2) hcard
    refine ⟨st₁, h₁, ?_⟩
    rw [visit_succ]
    exact (congrArg (Option.map _) hrun :)

/-- A depth of as many elements as are not marked is enough, and what is made is a fold over the elements in the
order in which they are left. -/
lemma exists_visitAll (hU : ∀ s ∈ U, ∀ t ∈ succ s, t ∈ U) {fuel : ℕ} {ts : List α} (hts : ∀ t ∈ ts, t ∈ U)
    (st : List α × List α) (hfuel : (U.filter (· ∉ st.1)).card ≤ fuel) :
    ∃ st', Visits succ ts st st' ∧
      visitAll succ leave fuel ts (st.1, st.2.foldr leave x) = some (st'.1, st'.2.foldr leave x) :=
  exists_visitAll_of leave x (fun _ ht _ hst hfuel => visitOk leave x hU ht hst hfuel) hts st hfuel

end Fuel

end Traversal

end Core.DepthFirst
