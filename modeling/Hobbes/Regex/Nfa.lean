import Hobbes.Core.Paths
import Hobbes.Core.Saturation
import Hobbes.Regex.EpsClosure
import Hobbes.Regex.EquivStates
import Hobbes.Regex.Syntax

/-!
# From regular expressions to an NFA

An expression is put between two states, where it makes states of its own. A loop goes from its state back to it, with
no state in between. Beside what the code does, the transitions that it adds are written down as a set.
-/

namespace Hobbes.Regex

open Core RangeOrd LawfulRangeOrd

/-- A state with the variables that begin and end there. -/
structure MarkedState extends NFAState where
  begins : SrcMarkers
  ends : SrcMarkers

abbrev MarkedNFA := List MarkedState

/-- A set of states is ordered, and has no state twice. -/
def insertState (t : ℕ) (ss : StateSet) : StateSet := insertOrd (· ≤ ·) t ss

/-- `markers[r].insert(vs.begin(), vs.end())`. -/
def markAll (r : ℕ) (vs : List String) : SrcMarkers → SrcMarkers
  | [] => [(r, insertAll (· ≤ ·) [] vs)]
  | (k, ms) :: markers =>
    if r = k then (k, insertAll (· ≤ ·) ms vs) :: markers
    else if r < k then (r, insertAll (· ≤ ·) [] vs) :: (k, ms) :: markers
    else (k, ms) :: markAll r vs markers

/-- A variable's name, each of whose bytes is a character. -/
def varName (v : List UInt8) : String := String.ofList (v.map fun c => Char.ofNat c.toNat)

namespace MarkedState

def empty : MarkedState := ⟨⟨[], [], none⟩, [], []⟩

def addEps (t : ℕ) (s : MarkedState) : MarkedState := { s with eps := insertState t s.eps }

def addChars (b e : UInt8) (t : ℕ) (s : MarkedState) : MarkedState :=
  { s with chars := s.chars.mergeRange (insertState t) (b, e) }

def beginMark (r : ℕ) (m : List UInt8) (s : MarkedState) : MarkedState :=
  { s with begins := markAll r [varName m] s.begins }

def endMark (r : ℕ) (m : List UInt8) (s : MarkedState) : MarkedState :=
  { s with ends := markAll r [varName m] s.ends }

end MarkedState

namespace MarkedNFA

/-- A state is made, and what is to begin there is linked to it. -/
def addState (link : ℕ → MarkedNFA → MarkedNFA) (nfa : MarkedNFA) : ℕ × MarkedNFA :=
  (nfa.length, link nfa.length (nfa ++ [.empty]))

end MarkedNFA

open MarkedNFA MarkedState

/-- An expression is put between `self` and `succ`. -/
def linkState : Regex → (self succ id : ℕ) → MarkedNFA → MarkedNFA
  | .reps, self, succ, _, nfa => nfa.modify self (addEps succ)
  | .rcharRange b e, self, succ, _, nfa => nfa.modify self (addChars b e succ)
  | .rstar v, self, succ, id, nfa => (linkState v self self id nfa).modify self (addEps succ)
  | .reither lhs rhs, self, succ, id, nfa =>
    let (lstate, nfa) := addState (fun s => linkState lhs s succ id) nfa
    let (rstate, nfa) := addState (fun s => linkState rhs s succ id) nfa
    (nfa.modify self (addEps lstate)).modify self (addEps rstate)
  | .rseq lhs rhs, self, succ, id, nfa =>
    let (rstate, nfa) := addState (fun s => linkState rhs s succ id) nfa
    linkState lhs self rstate id nfa
  | .rbind var defn, self, succ, id, nfa =>
    (linkState defn self succ id (nfa.modify self (beginMark id var))).modify succ (endMark id var)

def regexBefore (p : Regex) (cont x : ℕ) (nfa : MarkedNFA) : ℕ × MarkedNFA :=
  addState (fun s => linkState p s cont x) nfa

def accumRegex (p : Regex) (x : ℕ) (nfa : MarkedNFA) : ℕ × MarkedNFA :=
  regexBefore p nfa.length x (nfa ++ [{ MarkedState.empty with acc := some x }])

/-- The part of `makeRegexFn` that makes the NFA: it jumps to every possible start state. -/
def makeNFA (regexes : List Regex) : MarkedNFA :=
  regexes.zipIdx.foldl
    (fun nfa p =>
      let (s, nfa) := accumRegex p.1 p.2 nfa
      nfa.modify 0 (addEps s))
    [.empty]

def MarkedNFA.states (nfa : MarkedNFA) : NFA := nfa.map MarkedState.toNFAState

/-! ### The automaton -/

namespace NFAState

/-- The transition of a state from which a string is read, or the empty one. -/
def Step (s : NFAState) : Option UInt8 → ℕ → Prop
  | none, t => t ∈ s.eps
  | some c, t => ∃ ts, s.chars.valueAt c = some ts ∧ t ∈ ts

end NFAState

namespace NFA

/-- What the states and their transitions mean. -/
def automaton (nfa : NFA) : εNFA UInt8 ℕ where
  step s a := {t | ∃ st, nfa[s]? = some st ∧ st.Step a t}
  start := {0}
  accept := {s | ∃ st, nfa[s]? = some st ∧ st.acc ≠ none}

/-- The row that a state accepts. -/
def accOf (nfa : NFA) (s : ℕ) : Option ℕ := nfa[s]?.bind NFAState.acc

/-- The ranges of each state are in order. -/
def Ranged (nfa : NFA) : Prop := ∀ s ∈ nfa, SortedFrom 0 s.chars.ranges

end NFA

/-! ### What is added -/

/-- All ranges have characters. -/
def Proper : Regex → Prop
  | .reps => True
  | .rcharRange b e => b ≤ e
  | .rstar v => v.Proper
  | .reither lhs rhs => lhs.Proper ∧ rhs.Proper
  | .rseq lhs rhs => lhs.Proper ∧ rhs.Proper
  | .rbind _ defn => defn.Proper

/-- The number of states that an expression makes. -/
def stateCount : Regex → ℕ
  | .reps => 0
  | .rcharRange _ _ => 0
  | .rstar v => v.stateCount
  | .reither lhs rhs => 1 + lhs.stateCount + (1 + rhs.stateCount)
  | .rseq lhs rhs => 1 + rhs.stateCount + lhs.stateCount
  | .rbind _ defn => defn.stateCount

/-- A transition with its ends. -/
abbrev Link := ℕ × Option UInt8 × ℕ

/-- The transitions that an expression adds between `self` and `succ`, where its states are numbered from `n` on. -/
def links : Regex → (self succ n : ℕ) → Set Link
  | .reps, self, succ, _ => {(self, none, succ)}
  | .rcharRange b e, self, succ, _ => {l | l.1 = self ∧ (∃ c, l.2.1 = some c ∧ b ≤ c ∧ c ≤ e) ∧ l.2.2 = succ}
  | .rstar v, self, succ, n => v.links self self n ∪ {(self, none, succ)}
  | .reither lhs rhs, self, succ, n =>
    lhs.links n succ (n + 1) ∪ rhs.links (n + (1 + lhs.stateCount)) succ (n + (1 + lhs.stateCount) + 1) ∪
      {(self, none, n)} ∪ {(self, none, n + (1 + lhs.stateCount))}
  | .rseq lhs rhs, self, succ, n => rhs.links n succ (n + 1) ∪ lhs.links self n (n + (1 + rhs.stateCount))
  | .rbind _ defn, self, succ, n => defn.links self succ n

/-- There are `k` states more, and the transitions `W`. -/
structure Adds (nfa nfa' : MarkedNFA) (k : ℕ) (W : Set Link) : Prop where
  length : nfa'.length = nfa.length + k
  step : ∀ s a t, t ∈ nfa'.states.automaton.step s a ↔ t ∈ nfa.states.automaton.step s a ∨ (s, a, t) ∈ W
  acc : ∀ s, nfa'.states.accOf s = nfa.states.accOf s
  ranged : nfa'.states.Ranged

variable {nfa nfa' nfa'' : MarkedNFA} {s t : ℕ} {a : Option UInt8}

lemma mem_step : t ∈ nfa.states.automaton.step s a ↔ ∃ st, nfa[s]? = some st ∧ st.toNFAState.Step a t := by
  change (∃ st, (nfa.map MarkedState.toNFAState)[s]? = some st ∧ st.Step a t) ↔ _
  rw [List.getElem?_map]
  cases nfa[s]? <;> simp

lemma accOf_states : nfa.states.accOf s = nfa[s]?.bind fun st => st.acc := by
  rw [NFA.accOf, states, List.getElem?_map]
  cases nfa[s]? <;> rfl

lemma ranged_states : nfa.states.Ranged ↔ ∀ st ∈ nfa, SortedFrom 0 st.chars.ranges := List.forall_mem_map

lemma Adds.refl (h : nfa.states.Ranged) : Adds nfa nfa 0 ∅ :=
  ⟨rfl, fun _ _ _ => (or_iff_left (Set.notMem_empty _)).symm, fun _ => rfl, h⟩

lemma Adds.trans {k l : ℕ} {W V : Set Link} (h : Adds nfa nfa' k W) (h' : Adds nfa' nfa'' l V) :
    Adds nfa nfa'' (k + l) (W ∪ V) where
  length := by rw [h'.length, h.length, Nat.add_assoc]
  step s a t := by rw [h'.step, h.step, or_assoc, Set.mem_union]
  acc s := (h'.acc s).trans (h.acc s)
  ranged := h'.ranged

lemma getElem?_append_singleton {st st' : MarkedState} :
    (nfa ++ [st])[s]? = some st' ↔ nfa[s]? = some st' ∨ s = nfa.length ∧ st' = st := by
  rcases Nat.lt_trichotomy s nfa.length with hs | rfl | hs
  · rw [List.getElem?_append_left hs]
    exact (or_iff_left fun h => (Nat.ne_of_lt hs) h.1).symm
  · rw [List.getElem?_concat_length, List.getElem?_eq_none (Nat.le_refl _), Option.some_inj]
    simp [eq_comm]
  · have hnone : nfa.length + 1 ≤ s := hs
    rw [List.getElem?_eq_none (by rwa [List.length_append]), List.getElem?_eq_none (Nat.le_of_lt hs)]
    simp [Nat.ne_of_gt hs]

lemma not_step_of_nil {st : NFAState} (heps : st.eps = []) (hchars : st.chars = []) : ¬ st.Step a t := by
  cases a with
  | none =>
    change t ∉ st.eps
    rw [heps]
    exact List.not_mem_nil
  | some c =>
    rintro ⟨ts, hts, -⟩
    rw [hchars] at hts
    cases hts

/-- A state without transitions has been added. -/
lemma step_append (nfa : MarkedNFA) {st : MarkedState} (heps : st.eps = []) (hchars : st.chars = []) :
    t ∈ (nfa ++ [st]).states.automaton.step s a ↔ t ∈ nfa.states.automaton.step s a := by
  rw [mem_step, mem_step]
  constructor
  · rintro ⟨st', hst', hstep⟩
    rcases getElem?_append_singleton.mp hst' with hold | ⟨-, rfl⟩
    · exact ⟨st', hold, hstep⟩
    · exact absurd hstep (not_step_of_nil heps hchars)
  · rintro ⟨st', hst', hstep⟩
    exact ⟨st', getElem?_append_singleton.mpr (.inl hst'), hstep⟩

lemma ranged_append {st : MarkedState} (h : nfa.states.Ranged) (hchars : st.chars = []) :
    (nfa ++ [st]).states.Ranged := by
  rw [ranged_states] at h ⊢
  intro st' hst'
  rcases List.mem_append.mp hst' with hold | hnew
  · exact h st' hold
  · rw [List.mem_singleton.mp hnew, hchars]
    trivial

lemma adds_empty (h : nfa.states.Ranged) : Adds nfa (nfa ++ [.empty]) 1 ∅ where
  length := List.length_append
  step s a t := (step_append nfa rfl rfl).trans (or_iff_left (Set.notMem_empty _)).symm
  acc s := by
    rw [accOf_states, accOf_states]
    rcases Nat.lt_trichotomy s nfa.length with hs | rfl | hs
    · rw [List.getElem?_append_left hs]
    · rw [List.getElem?_concat_length, List.getElem?_eq_none (Nat.le_refl _)]
      rfl
    · have hnone : nfa.length + 1 ≤ s := hs
      rw [List.getElem?_eq_none (by rwa [List.length_append]), List.getElem?_eq_none (Nat.le_of_lt hs)]
  ranged := ranged_append h rfl

/-- What a function makes of a state: the transitions `V` are added. -/
def AddsTo (f : MarkedState → MarkedState) (V : Option UInt8 → ℕ → Prop) : Prop :=
  ∀ st : MarkedState, SortedFrom 0 st.chars.ranges →
    (∀ a t, (f st).toNFAState.Step a t ↔ st.toNFAState.Step a t ∨ V a t) ∧ (f st).acc = st.acc ∧
      SortedFrom 0 (f st).chars.ranges

lemma addsTo_addEps (u : ℕ) : AddsTo (addEps u) fun a t => a = none ∧ t = u := by
  refine fun st hst => ⟨fun a t => ?_, rfl, hst⟩
  cases a with
  | none =>
    change t ∈ insertState u st.eps ↔ t ∈ st.eps ∨ none = none ∧ t = u
    rw [insertState, mem_insertOrd, or_comm, eq_self, true_and]
  | some c => exact (or_iff_left fun h => Option.some_ne_none c h.1).symm

lemma addsTo_addChars {b e : UInt8} (hbe : b ≤ e) (u : ℕ) :
    AddsTo (addChars b e u) fun a t => (∃ c, a = some c ∧ b ≤ c ∧ c ≤ e) ∧ t = u := by
  have hne : Range.Nonempty (b, e) := UInt8.le_iff_toNat_le.mp hbe
  refine fun st hst => ⟨fun a t => ?_, rfl, RangeMap.sortedFrom_mergeRange _ hne (Nat.zero_le _) hst⟩
  cases a with
  | none =>
    refine (or_iff_left ?_).symm
    rintro ⟨⟨c, hc, -⟩, -⟩
    cases hc
  | some c =>
    have hcontains : Range.Contains (b, e) c ↔ b ≤ c ∧ c ≤ e :=
      and_congr UInt8.le_iff_toNat_le.symm UInt8.le_iff_toNat_le.symm
    simp only [NFAState.Step, addChars, RangeMap.valueAt_mergeRange _ hne hst, hcontains, Option.some_inj,
      exists_eq_left']
    by_cases hc : b ≤ c ∧ c ≤ e
    · rw [if_pos hc, and_iff_right hc]
      simp only [Option.some_inj, exists_eq_left', insertState, mem_insertOrd, or_comm]
      refine or_congr_right ?_
      cases hv : st.chars.valueAt c with
      | none => exact iff_of_false List.not_mem_nil (by simp)
      | some ts => simp
    · rw [if_neg hc, iff_false_intro hc, false_and, or_false]

/-- Marks add nothing. -/
lemma addsTo_mark {f : MarkedState → MarkedState} (hf : ∀ st, (f st).toNFAState = st.toNFAState) :
    AddsTo f fun _ _ => False := by
  intro st hst
  rw [hf]
  exact ⟨fun _ _ => (or_iff_left not_false).symm, rfl, hst⟩

lemma adds_modify {f : MarkedState → MarkedState} {V : Option UInt8 → ℕ → Prop} (h : nfa.states.Ranged)
    (hf : AddsTo f V) (hs : s < nfa.length ∨ ∀ a t, ¬ V a t) :
    Adds nfa (nfa.modify s f) 0 {l | l.1 = s ∧ V l.2.1 l.2.2} where
  length := List.length_modify f nfa s
  step u a t := by
    rw [mem_step, mem_step, List.getElem?_modify]
    cases hst : nfa[u]? with
    | none =>
      refine iff_of_false (by simp) ?_
      rintro (⟨st, hst', -⟩ | ⟨rfl, hV⟩)
      · cases hst'
      · exact hs.elim (fun hlt => Nat.not_le.mpr hlt (List.getElem?_eq_none_iff.mp hst)) fun hno => hno a t hV
    | some st =>
      have hsteps := (hf st (ranged_states.mp h st (List.mem_of_getElem? hst))).1 a t
      simp only [Option.map_eq_map, Option.map_some, Option.some_inj, exists_eq_left', Set.mem_ofPred_eq]
      by_cases hus : s = u
      · rw [if_pos hus, hsteps, and_iff_right hus.symm]
      · rw [if_neg hus]
        exact (or_iff_left fun hV => hus hV.1.symm).symm
  acc u := by
    rw [accOf_states, accOf_states, List.getElem?_modify]
    cases hst : nfa[u]? with
    | none => rfl
    | some st =>
      simp only [Option.map_eq_map, Option.map_some, Option.bind_some]
      split_ifs
      · exact (hf st (ranged_states.mp h st (List.mem_of_getElem? hst))).2.1
      · rfl
  ranged := by
    rw [ranged_states] at h ⊢
    intro st hst
    obtain ⟨u, hu⟩ := List.mem_iff_getElem?.mp hst
    rw [List.getElem?_modify] at hu
    obtain ⟨st', hst', rfl⟩ := Option.map_eq_some_iff.mp hu
    have hsorted := h st' (List.mem_of_getElem? hst')
    split_ifs
    · exact (hf st' hsorted).2.2
    · exact hsorted

lemma adds_addEps (h : nfa.states.Ranged) (hs : s < nfa.length) (u : ℕ) :
    Adds nfa (nfa.modify s (addEps u)) 0 {(s, none, u)} := by
  have hadds := adds_modify h (addsTo_addEps u) (.inl hs)
  have heq : {l : Link | l.1 = s ∧ l.2.1 = none ∧ l.2.2 = u} = {(s, none, u)} := by
    ext ⟨s', a, t⟩
    simp
  rwa [heq] at hadds

lemma adds_mark {f : MarkedState → MarkedState} (h : nfa.states.Ranged) (hf : ∀ st, (f st).toNFAState = st.toNFAState) :
    Adds nfa (nfa.modify s f) 0 ∅ := by
  have hadds := adds_modify h (addsTo_mark hf) (.inr fun _ _ => not_false) (s := s)
  have heq : {l : Link | l.1 = s ∧ False} = ∅ := by
    simp
  rwa [heq] at hadds

/-- A state is made before `succ`. -/
lemma adds_regexBefore {r : Regex} {succ id : ℕ}
    (hlink : ∀ (nfa : MarkedNFA) (self : ℕ), nfa.states.Ranged → self < nfa.length →
      Adds nfa (r.linkState self succ id nfa) r.stateCount (r.links self succ nfa.length))
    (h : nfa.states.Ranged) : Adds nfa (regexBefore r succ id nfa).2 (1 + r.stateCount)
      (r.links nfa.length succ (nfa.length + 1)) := by
  have hempty := adds_empty h
  have hself : nfa.length < (nfa ++ [MarkedState.empty]).length := by
    rw [hempty.length]
    exact Nat.lt_succ_self _
  have hadds := hempty.trans (hlink _ _ hempty.ranged hself)
  rwa [Set.empty_union, hempty.length] at hadds

/-- An expression adds its states and transitions. -/
lemma adds_linkState {r : Regex} (hr : r.Proper) {self : ℕ} (h : nfa.states.Ranged) (hself : self < nfa.length)
    (succ id : ℕ) :
    Adds nfa (r.linkState self succ id nfa) r.stateCount (r.links self succ nfa.length) := by
  induction r generalizing nfa self succ with
  | reps => exact adds_addEps h hself succ
  | rcharRange b e => exact adds_modify h (addsTo_addChars hr succ) (.inl hself)
  | rstar v ih =>
    have hv := ih hr h hself self
    have hself' := Nat.lt_of_lt_of_le hself (Nat.le.intro hv.length.symm)
    exact hv.trans (adds_addEps hv.ranged hself' succ)
  | reither lhs rhs ihl ihr =>
    have hl := adds_regexBefore (fun nfa self h hself => ihl hr.1 h hself succ) h
    have hr' := adds_regexBefore (fun nfa self h hself => ihr hr.2 h hself succ) hl.ranged
    rw [hl.length] at hr'
    have hboth := hl.trans hr'
    have hself' := Nat.lt_of_lt_of_le hself (Nat.le.intro hboth.length.symm)
    have hleft := hboth.trans (adds_addEps hboth.ranged hself' nfa.length)
    have hself'' := Nat.lt_of_lt_of_le hself (Nat.le.intro hleft.length.symm)
    have hright := adds_addEps hleft.ranged hself'' (regexBefore lhs succ id nfa).2.length
    have hlink : ({(self, none, (regexBefore lhs succ id nfa).2.length)} : Set Link) =
        {(self, none, nfa.length + (1 + lhs.stateCount))} := by
      rw [hl.length]
    rw [hlink] at hright
    exact hleft.trans hright
  | rseq lhs rhs ihl ihr =>
    have hr' := adds_regexBefore (fun nfa self h hself => ihr hr.2 h hself succ) h
    have hself' := Nat.lt_of_lt_of_le hself (Nat.le.intro hr'.length.symm)
    have hl := ihl hr.1 hr'.ranged hself' nfa.length
    rw [hr'.length] at hl
    exact hr'.trans hl
  | rbind var defn ih =>
    have hbegin : Adds nfa (nfa.modify self (beginMark id var)) 0 ∅ := adds_mark h fun _ => rfl
    have hself' := Nat.lt_of_lt_of_le hself (Nat.le.intro hbegin.length.symm)
    have hdefn := hbegin.trans (ih hr hbegin.ranged hself' succ)
    have hall := hdefn.trans (adds_mark hdefn.ranged (s := succ) (f := endMark id var) fun _ => rfl)
    rw [Set.empty_union, Set.union_empty, hbegin.length, Nat.zero_add] at hall
    exact hall

end Hobbes.Regex
