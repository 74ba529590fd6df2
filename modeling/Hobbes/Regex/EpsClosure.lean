import Hobbes.Core.DepthFirst
import Hobbes.Regex.RangeMap
import Mathlib.Logic.Function.Basic

/-!
# Epsilon closures

The states of an NFA and the states that each can reach by epsilon transitions. A depth-first traversal makes the
closure of a state when it leaves it, out of what it has made for the successors so far. Where a successor is
still being visited, that is nothing yet.
-/

namespace Hobbes.Regex

open Core.DepthFirst Relation

/-- A `stateset`, in its order. -/
abbrev StateSet := List ℕ

/-- The transitions of a state, and what it accepts. -/
structure NFAState where
  eps : StateSet
  chars : RangeMap UInt8 StateSet
  acc : Option ℕ

abbrev NFA := List NFAState

/-- An entry that has not been made is empty. -/
abbrev EpsClosure := ℕ → Finset ℕ

namespace NFA

def eps (nfa : NFA) (s : ℕ) : StateSet := (nfa[s]?).elim [] NFAState.eps

/-- The closure of a state, from the closures of its successors. -/
def closeState (nfa : NFA) (s : ℕ) (ec : EpsClosure) : EpsClosure :=
  Function.update ec s ((nfa.eps s).foldl (fun stes et => insert et stes ∪ ec et) (insert s (ec s)))

/-- The marked states and the closures that have been made, after a visit of `s`. -/
def findEpsClosureFrom (nfa : NFA) : ℕ → ℕ → List ℕ × EpsClosure → Option (List ℕ × EpsClosure)
  | 0, _, _ => none
  | fuel + 1, s, st =>
    if s ∈ st.1 then some st
    else
      ((nfa.eps s).foldlM (fun st et => if et ∈ st.1 then some st else findEpsClosureFrom nfa fuel et st)
        (s :: st.1, st.2)).map fun st => (st.1, nfa.closeState s st.2)

def findEpsClosure (nfa : NFA) : Option EpsClosure :=
  ((List.range nfa.length).foldlM
    (fun st s => if s ∈ st.1 then some st else findEpsClosureFrom nfa nfa.length s st) ([], fun _ => ∅)).map Prod.snd

/-- The transitions of a state go to states. -/
def WellFormed (nfa : NFA) : Prop := ∀ s ∈ nfa, ∀ t ∈ s.eps, t < nfa.length

def EpsStep (nfa : NFA) (s t : ℕ) : Prop := t ∈ nfa.eps s

/-- The states in the order in which the traversal leaves them, the last one first. -/
def left (nfa : NFA) : List ℕ :=
  (visitAll nfa.eps List.cons nfa.length (List.range nfa.length) ([], [])).elim [] Prod.snd

/-- From `s` to `t`, by transitions that but for the last one go to states that have been left before. -/
inductive Falls (nfa : NFA) (left : List ℕ) : ℕ → ℕ → Prop
  | refl (s : ℕ) : Falls nfa left s s
  | last {s t : ℕ} (h : nfa.EpsStep s t) : Falls nfa left s t
  | step {pre post : List ℕ} {s u t : ℕ} (hleft : left = pre ++ s :: post) (hu : u ∈ post) (h : nfa.EpsStep s u)
      (hut : Falls nfa left u t) : Falls nfa left s t

/-! ### The traversal -/

lemma findEpsClosureFrom_eq (nfa : NFA) (fuel s : ℕ) (st : List ℕ × EpsClosure) (hs : s ∉ st.1) :
    findEpsClosureFrom nfa fuel s st = visit nfa.eps nfa.closeState fuel s st := by
  induction fuel generalizing s st with
  | zero => rfl
  | succ fuel ih =>
    have hstep : (fun (st : List ℕ × EpsClosure) et =>
          if et ∈ st.1 then some st else findEpsClosureFrom nfa fuel et st) =
        fun st et => if et ∈ st.1 then some st else visit nfa.eps nfa.closeState fuel et st := by
      funext st et
      split_ifs with het
      · rfl
      · exact ih et st het
    rw [findEpsClosureFrom, if_neg hs, hstep]
    rfl

/-- A state is left once, and where it has epsilon transitions that do not go to a state left before, there is a way
back. The closures are made in this order. -/
lemma exists_left {nfa : NFA} (hnfa : nfa.WellFormed) :
    nfa.left.Nodup ∧ (∀ s < nfa.length, s ∈ nfa.left) ∧ BackEdges nfa.eps nfa.left ∧
      nfa.findEpsClosure = some (nfa.left.foldr nfa.closeState fun _ => ∅) := by
  have hU : ∀ s ∈ Finset.range nfa.length, ∀ t ∈ nfa.eps s, t ∈ Finset.range nfa.length := by
    intro s hs t ht
    rw [Finset.mem_range] at hs ⊢
    rw [eps, List.getElem?_eq_getElem hs] at ht
    exact hnfa _ (List.getElem_mem hs) t ht
  have hts : ∀ t ∈ List.range nfa.length, t ∈ Finset.range nfa.length := fun t ht => by
    rw [List.mem_range] at ht
    exact Finset.mem_range.2 ht
  have hfuel : ((Finset.range nfa.length).filter (· ∉ (([], []) : List ℕ × List ℕ).1)).card ≤ nfa.length :=
    Nat.le_trans (Finset.card_filter_le _ _) (Nat.le_of_eq (Finset.card_range _))
  obtain ⟨st, hvisits, hrun⟩ := exists_visitAll List.cons [] hU hts ([], []) hfuel
  obtain ⟨st', hvisits', hrun'⟩ := exists_visitAll nfa.closeState (fun _ => ∅) hU hts ([], []) hfuel
  obtain rfl := hvisits.unique hvisits'
  have hleft : nfa.left = st.2 := by
    rw [left, show (([], []) : List ℕ × List ℕ) = ([], [].foldr List.cons []) from rfl, hrun, List.foldr_cons_nil]
    rfl
  refine ⟨?_, fun s hs => ?_, ?_, ?_⟩
  · obtain ⟨new, hnew, hnodup, -, -⟩ := hvisits.extends
    rw [hleft, hnew, List.append_nil]
    exact hnodup
  · obtain ⟨new, hnew, -, -, hmarks⟩ := hvisits.extends
    rcases (hmarks s).1 (hvisits.mem s (List.mem_range.2 hs)) with hmem | hmem
    · exact absurd hmem List.not_mem_nil
    · rw [hleft, hnew, List.append_nil]
      exact hmem
  · rw [hleft]
    refine hvisits.backEdges (fun x hx => absurd hx List.not_mem_nil) fun pre s post heq => ?_
    exact absurd heq.symm (List.append_ne_nil_of_right_ne_nil pre (List.cons_ne_nil s post))
  · have hstep : (fun (st : List ℕ × EpsClosure) s =>
          if s ∈ st.1 then some st else findEpsClosureFrom nfa nfa.length s st) =
        fun st s => if s ∈ st.1 then some st else visit nfa.eps nfa.closeState nfa.length s st := by
      funext st s
      split_ifs with hs
      · rfl
      · exact findEpsClosureFrom_eq nfa nfa.length s st hs
    rw [findEpsClosure, hstep, hleft]
    exact (congrArg (Option.map Prod.snd) hrun' :)

/-! ### The closures that it makes -/

lemma mem_foldl {l : StateSet} {ec : EpsClosure} {stes : Finset ℕ} {t : ℕ} :
    t ∈ l.foldl (fun stes et => insert et stes ∪ ec et) stes ↔ t ∈ stes ∨ ∃ et ∈ l, t = et ∨ t ∈ ec et := by
  induction l generalizing stes with
  | nil => simp
  | cons x l ih =>
    simp only [List.foldl_cons, ih, Finset.mem_union, Finset.mem_insert, List.mem_cons, exists_eq_or_imp, or_assoc]
    rw [or_left_comm]

lemma mem_closeState_self {nfa : NFA} {s t : ℕ} {ec : EpsClosure} :
    t ∈ nfa.closeState s ec s ↔ t = s ∨ t ∈ ec s ∨ ∃ et, nfa.EpsStep s et ∧ (t = et ∨ t ∈ ec et) := by
  rw [closeState, Function.update_self, mem_foldl, Finset.mem_insert, or_assoc]
  rfl

lemma foldr_closeState_of_notMem {nfa : NFA} {l : List ℕ} {s : ℕ} (hs : s ∉ l) :
    l.foldr nfa.closeState (fun _ => ∅) s = ∅ := by
  induction l with
  | nil => rfl
  | cons x l ih =>
    rw [List.mem_cons, not_or] at hs
    rw [List.foldr_cons, closeState, Function.update_of_ne hs.1]
    exact ih hs.2

/-- What is left later does not matter. -/
lemma falls_cons {nfa : NFA} {l : List ℕ} {x s t : ℕ} (hx : x ∉ l) (hs : s ∈ l) :
    Falls nfa (x :: l) s t ↔ Falls nfa l s t := by
  constructor
  · intro h
    induction h with
    | refl s => exact .refl s
    | last h => exact .last h
    | @step pre post s u t hleft hu h _ ih =>
      cases pre with
      | nil => exact absurd ((List.cons.inj hleft).1 ▸ hs) hx
      | cons y pre =>
        obtain ⟨rfl, rfl⟩ := List.cons.inj hleft
        exact .step rfl hu h (ih (List.mem_append_right _ (List.mem_cons_of_mem s hu)))
  · intro h
    induction h with
    | refl s => exact .refl s
    | last h => exact .last h
    | @step pre post s u t hleft hu h _ ih =>
      subst hleft
      exact .step (List.cons_append).symm hu h (ih (List.mem_append_right _ (List.mem_cons_of_mem s hu)))

lemma falls_head {nfa : NFA} {l : List ℕ} {s t : ℕ} (hs : s ∉ l) :
    Falls nfa (s :: l) s t ↔ t = s ∨ ∃ et, nfa.EpsStep s et ∧ (t = et ∨ et ∈ l ∧ Falls nfa l et t) := by
  constructor
  · intro h
    cases h with
    | refl => exact .inl rfl
    | last h => exact .inr ⟨t, h, .inl rfl⟩
    | @step pre post _ u _ hleft hu h hut =>
      cases pre with
      | nil =>
        obtain ⟨-, rfl⟩ := List.cons.inj hleft
        exact .inr ⟨u, h, .inr ⟨hu, (falls_cons hs hu).1 hut⟩⟩
      | cons y pre =>
        obtain ⟨-, rfl⟩ := List.cons.inj hleft
        exact absurd (List.mem_append_right _ List.mem_cons_self) hs
  · rintro (rfl | ⟨et, h, rfl | ⟨het, hfalls⟩⟩)
    · exact .refl t
    · exact .last h
    · exact .step (List.nil_append _).symm het h ((falls_cons hs het).2 hfalls)

/-- The closure made for a state has what the transitions lead to that fall. -/
lemma mem_foldr_closeState {nfa : NFA} {l : List ℕ} (hl : l.Nodup) {s t : ℕ} (hs : s ∈ l) :
    t ∈ l.foldr nfa.closeState (fun _ => ∅) s ↔ Falls nfa l s t := by
  induction l generalizing s t with
  | nil => exact absurd hs List.not_mem_nil
  | cons x l ih =>
    rw [List.nodup_cons] at hl
    rw [List.foldr_cons]
    by_cases hsx : s = x
    · subst hsx
      rw [mem_closeState_self, foldr_closeState_of_notMem hl.1, falls_head hl.1]
      have hentry (et : ℕ) : t ∈ l.foldr nfa.closeState (fun _ => ∅) et ↔ et ∈ l ∧ Falls nfa l et t := by
        by_cases het : et ∈ l
        · rw [ih hl.2 het, and_iff_right het]
        · rw [foldr_closeState_of_notMem het, iff_false_intro (Finset.notMem_empty t), false_iff]
          exact fun h => het h.1
      simp only [hentry, Finset.notMem_empty, false_or]
    · have hs : s ∈ l := (List.mem_cons.1 hs).resolve_left hsx
      rw [closeState, Function.update_of_ne hsx, ih hl.2 hs, falls_cons hl.1 hs]

lemma Falls.reflTransGen {nfa : NFA} {l : List ℕ} {s t : ℕ} (h : Falls nfa l s t) :
    ReflTransGen nfa.EpsStep s t := by
  induction h with
  | refl => exact .refl
  | last h => exact .single h
  | step _ _ h _ ih => exact .head h ih

/-- The entry of each state is the set of the states it reaches just when all that it reaches falls. -/
theorem findEpsClosure_iff {nfa : NFA} (hnfa : nfa.WellFormed) :
    (∃ ec, nfa.findEpsClosure = some ec ∧
      ∀ s < nfa.length, ∀ t, t ∈ ec s ↔ ReflTransGen nfa.EpsStep s t) ↔
      ∀ s < nfa.length, ∀ t, ReflTransGen nfa.EpsStep s t → Falls nfa nfa.left s t := by
  obtain ⟨hnodup, hmem, -, hrun⟩ := exists_left hnfa
  constructor
  · rintro ⟨ec, hec, hclosure⟩ s hs t hst
    obtain rfl := Option.some.inj (hrun.symm.trans hec)
    exact (mem_foldr_closeState hnodup (hmem s hs)).1 ((hclosure s hs t).2 hst)
  · intro hfalls
    refine ⟨_, hrun, fun s hs t => ?_⟩
    rw [mem_foldr_closeState hnodup (hmem s hs)]
    exact ⟨Falls.reflTransGen, hfalls s hs t⟩

lemma lt_of_reflTransGen {nfa : NFA} (hnfa : nfa.WellFormed) {s t : ℕ} (hs : s < nfa.length)
    (hst : ReflTransGen nfa.EpsStep s t) : t < nfa.length := by
  induction hst with
  | refl => exact hs
  | @tail u t _ h ih =>
    rw [EpsStep, eps, List.getElem?_eq_getElem ih] at h
    exact hnfa _ (List.getElem_mem ih) t h

/-- Two states, each with an epsilon transition to the other. -/
def twoCycle : NFA := [⟨[1], [], none⟩, ⟨[0], [], some 0⟩]

/-- Three states, each with an epsilon transition to the next one. -/
def threeCycle : NFA := [⟨[1], [], none⟩, ⟨[2], [], none⟩, ⟨[0], [], some 0⟩]

theorem findEpsClosure_twoCycle :
    ∃ ec, twoCycle.findEpsClosure = some ec ∧
      ∀ s < twoCycle.length, ∀ t, t ∈ ec s ↔ ReflTransGen twoCycle.EpsStep s t := by
  have hnfa : twoCycle.WellFormed := by unfold WellFormed; decide
  refine (findEpsClosure_iff hnfa).2 fun s hs t hst => ?_
  have ht : t < 2 := lt_of_reflTransGen hnfa hs hst
  obtain rfl | rfl : s = 0 ∨ s = 1 := by change s < 2 at hs; omega
  all_goals obtain rfl | rfl : t = 0 ∨ t = 1 := by omega
  · exact .refl 0
  · exact .last (show 1 ∈ twoCycle.eps 0 by decide)
  · exact .last (show 0 ∈ twoCycle.eps 1 by decide)
  · exact .refl 1

/-- The closure of the last state is made while both others are being visited. -/
theorem not_closure_threeCycle :
    ¬∃ ec, threeCycle.findEpsClosure = some ec ∧
      ∀ s < threeCycle.length, ∀ t, t ∈ ec s ↔ ReflTransGen threeCycle.EpsStep s t := by
  rintro ⟨ec, hec, hclosure⟩
  have hentry : threeCycle.findEpsClosure.map (fun ec => decide (1 ∈ ec 2)) = some false := by decide
  have hreach : ReflTransGen threeCycle.EpsStep 2 1 :=
    .head (show 0 ∈ threeCycle.eps 2 by decide) (.single (show 1 ∈ threeCycle.eps 0 by decide))
  have hmem : 1 ∈ ec 2 := (hclosure 2 (by decide) 1).2 hreach
  rw [hec, Option.map_some, Option.some_inj, decide_eq_false_iff_not] at hentry
  exact hentry hmem

/-- Where no two states reach each other, all that a state reaches falls. -/
lemma falls_of_acyclic {nfa : NFA} (hnfa : nfa.WellFormed)
    (hcycle : ∀ s t, ReflTransGen nfa.EpsStep s t → ReflTransGen nfa.EpsStep t s → s = t) {s t : ℕ}
    (hs : s < nfa.length) (hst : ReflTransGen nfa.EpsStep s t) : Falls nfa nfa.left s t := by
  obtain ⟨-, hmem, hback, -⟩ := exists_left hnfa
  induction hst using ReflTransGen.head_induction_on with
  | refl => exact .refl t
  | @head s u h _ ih =>
    have hfalls : Falls nfa nfa.left u t := ih (lt_of_reflTransGen hnfa hs (.single h))
    obtain ⟨pre, post, heq⟩ := List.append_of_mem (hmem s hs)
    rcases hback pre s post heq u h with hu | hus
    · exact .step heq hu h hfalls
    · rwa [hcycle s u (.single h) hus]

end NFA

end Hobbes.Regex
