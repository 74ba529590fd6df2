import Hobbes.Regex.SubsetConstruction

/-!
# What the DFA reads

A state of the DFA that is reached by a string stands for NFA states that the string leads to. It stands for all of
them where the epsilon closures are complete and the ranges are refined.
-/

namespace Hobbes.Regex

open Core Relation

namespace NFA

variable {nfa : NFA} {s t n : ℕ} {c : UInt8}

/-! ### Epsilon closures -/

lemma mem_step_none : t ∈ nfa.automaton.step s none ↔ nfa.EpsStep s t := by
  rw [EpsStep, eps]
  constructor
  · rintro ⟨st, hst, ht⟩
    rw [hst]
    exact ht
  · intro ht
    cases hst : nfa[s]? with
    | none =>
      rw [hst] at ht
      exact absurd ht List.not_mem_nil
    | some st =>
      rw [hst] at ht
      exact ⟨st, hst, ht⟩

lemma mem_step_some : t ∈ nfa.automaton.step s (some c) ↔ ∃ ts, (nfa.chars s).valueAt c = some ts ∧ t ∈ ts := by
  rw [chars]
  constructor
  · rintro ⟨st, hst, ts, hts, ht⟩
    rw [hst]
    exact ⟨ts, hts, ht⟩
  · rintro ⟨ts, hts, ht⟩
    cases hst : nfa[s]? with
    | none =>
      rw [hst] at hts
      cases hts
    | some st =>
      rw [hst] at hts
      exact ⟨st, hst, ts, hts, ht⟩

lemma spells_nil_iff : Spells nfa.automaton s t [] ↔ ReflTransGen nfa.EpsStep s t := by
  constructor
  · rintro ⟨x, hx, hpath⟩
    induction hpath with
    | nil => exact .refl
    | cons u s t a x hstep hpath ih =>
      cases a with
      | none => exact .head (mem_step_none.1 hstep) (ih hx)
      | some c =>
        rw [List.reduceOption_cons_of_some] at hx
        cases hx
  · intro h
    induction h with
    | refl => exact .refl s
    | tail _ hstep ih => exact ih.trans (Spells.single (mem_step_none.2 hstep))

/-- Each state reaches what is in its closure. -/
def EntriesSound (nfa : NFA) (ec : EpsClosure) : Prop := ∀ s < nfa.length, ∀ t ∈ ec s, Spells nfa.automaton s t []

/-- Each state's closure has all that it reaches. -/
def EntriesComplete (nfa : NFA) (ec : EpsClosure) : Prop :=
  ∀ s < nfa.length, ∀ t, Spells nfa.automaton s t [] → t ∈ ec s

lemma exists_findEpsClosure (hnfa : nfa.WellFormed) :
    ∃ ec, nfa.findEpsClosure = some ec ∧ EntriesOk nfa.length ec ∧ EntriesSound nfa ec ∧
      ((∀ s, ¬ EpsCycle nfa.automaton s) → EntriesComplete nfa ec) := by
  obtain ⟨hnodup, hmem, -, hrun⟩ := exists_left hnfa
  have hsound : ∀ s < nfa.length, ∀ t ∈ nfa.left.foldr nfa.closeState (fun _ => ∅) s,
      ReflTransGen nfa.EpsStep s t := fun s hs t ht => ((mem_foldr_closeState hnodup (hmem s hs)).1 ht).reflTransGen
  refine ⟨_, hrun, fun s hs => ⟨?_, fun t ht => ?_⟩, fun s hs t ht => ?_, fun hcycle s hs t ht => ?_⟩
  · exact (mem_foldr_closeState hnodup (hmem s hs)).2 (.refl s)
  · exact lt_of_reflTransGen hnfa hs (hsound s hs t ht)
  · exact spells_nil_iff.2 (hsound s hs t ht)
  · refine (mem_foldr_closeState hnodup (hmem s hs)).2 (falls_of_acyclic hnfa (fun s t hst hts => ?_) hs
      (spells_nil_iff.1 ht))
    by_contra hne
    exact hcycle s (epsCycle_of_spells hne (spells_nil_iff.2 hst) (spells_nil_iff.2 hts))

end NFA

open DfaBuild

/-! ### Runs -/

variable {nfa : MarkedNFA} {ec : EpsClosure} {b : DfaBuild} {ss : Finset ℕ} {s t : ℕ} {w : List UInt8}

lemma lt_of_lookupRangeSubset (hranged : nfa.states.Ranged)
    (hlt : ∀ s a t, t ∈ nfa.states.automaton.step s a → t < nfa.length) (s : ℕ) (cr : Range UInt8) (ts : StateSet)
    (h : (nfa.states.chars s).lookupRangeSubset cr = some ts) : ∀ t ∈ ts, t < nfa.length := by
  intro t ht
  have hfirst : (nfa.states.chars s).lookup cr.1 = some ts := by
    rw [RangeMap.lookupRangeSubset] at h
    split_ifs at h
    exact h
  rw [RangeMap.lookup_eq_valueAt (NFA.sorted_chars hranged s)] at hfirst
  exact hlt s (some cr.1) t (NFA.mem_step_some.2 ⟨ts, hfirst, ht⟩)

/-- What the construction makes of an NFA: all sets with numbers are described. -/
structure Built (nfa : MarkedNFA) (ec : EpsClosure) (b : DfaBuild) : Prop where
  ranged : nfa.states.Ranged
  lt : ∀ s a t, t ∈ nfa.states.automaton.step s a → t < nfa.length
  entries : EntriesOk nfa.length ec
  sound : nfa.states.EntriesSound ec
  ok : b.Ok nfa.length
  described : ∀ ss s, b.nss2ds.lookup ss = some s → ∃ sd, Described nfa ec b ss s sd

/-- A DFA is made, and its first state stands for the states that the start reaches. -/
lemma exists_disambiguate (hranged : nfa.states.Ranged) (hpos : 0 < nfa.length)
    (hlt : ∀ s a t, t ∈ nfa.states.automaton.step s a → t < nfa.length) :
    ∃ ec b, disambiguate nfa = some b ∧ Built nfa ec b ∧ b.nss2ds.lookup (ec 0) = some 0 ∧
      ((∀ s, ¬ EpsCycle nfa.states.automaton s) → nfa.states.EntriesComplete ec) := by
  have hnfa : nfa.states.WellFormed := by
    intro st hst t ht
    obtain ⟨s, hs⟩ := List.mem_iff_getElem?.1 hst
    rw [length_states]
    exact hlt s none t ⟨st, hs, ht⟩
  obtain ⟨ec, hec, hok, hsound, hcomplete⟩ := NFA.exists_findEpsClosure hnfa
  rw [length_states] at hok
  have hempty : DfaBuild.empty.Ok nfa.length :=
    ⟨fun _ _ h => absurd h (Option.some_ne_none _).symm, fun _ h => absurd h (Nat.not_lt_zero _), fun _ _ => rfl⟩
  have hfuel : (DfaBuild.empty.missing nfa.length).card < 2 ^ nfa.length + 1 := by
    refine Nat.lt_succ_of_le ((Finset.card_filter_le _ _).trans ?_)
    rw [Finset.card_powerset, Finset.card_range]
  obtain ⟨s, b, hcall, hmade, hs⟩ := makes hok hranged (lt_of_lookupRangeSubset hranged hlt) _ (ec 0) .empty hempty
    (hok 0 hpos).2 hfuel
  have hzero : s = 0 := by
    have hcall' := hcall
    rw [dfaState] at hcall'
    obtain ⟨b', -, heq⟩ := Option.map_eq_some_iff.1 hcall'
    exact (Prod.mk.inj heq).1.symm
  refine ⟨ec, b, ?_, ⟨hranged, hlt, hok, hsound, hmade.ok, fun ss s hs => ?_⟩, hzero ▸ hs, hcomplete⟩
  · rw [disambiguate, hec, Option.bind_some, epsState_eq hok hpos, Option.bind_some, hcall]
    rfl
  · rcases hmade.new ss s hs with hold | ⟨-, -, hdesc⟩
    · cases hold
    · exact hdesc

namespace Built

lemma wellFormed (h : Built nfa ec b) : b.dfa.WellFormed := by
  intro sd hsd
  obtain ⟨s, hs⟩ := List.mem_iff_getElem?.1 hsd
  obtain ⟨ss, hss⟩ := h.ok.onto s (List.getElem?_eq_some_iff.1 hs).1
  obtain ⟨sd', hdesc⟩ := h.described ss s hss
  obtain rfl := Option.some.inj (hs.symm.trans hdesc.state)
  refine ⟨hdesc.reads.sorted.sorted, fun m hm => ?_⟩
  have hin : m.1.Contains m.1.1 :=
    ⟨Nat.le_refl _, hdesc.reads.sorted.sorted.1 m.1 (List.mem_map_of_mem (f := Prod.fst) hm)⟩
  obtain ⟨-, -, -, ss', -, ht⟩ := hdesc.reads.lookup _ _ (RangeMap.valueAt_of_mem hdesc.reads.sorted hm hin)
  exact (h.ok.lookup ss' _ ht).1

/-- What a set leads to by a character of a range. -/
lemma mem_nfaTransition (h : Built nfa ec b) {cr : Range UInt8} {ss' : Finset ℕ}
    (hss' : nfaTransition nfa.states ec ss cr = some ss') :
    t ∈ ss' ↔ ∃ s ∈ ss, ∃ ts, (nfa.states.chars s).lookupRangeSubset cr = some ts ∧ ∃ u ∈ ts, t ∈ ec u := by
  obtain ⟨ss'', hss'', -, hiff⟩ := exists_nfaTransition h.entries (lt_of_lookupRangeSubset h.ranged h.lt) ss cr
  obtain rfl := Option.some.inj (hss'.symm.trans hss'')
  exact hiff t

/-- The state that a string leads to stands for NFA states that the string leads to. -/
lemma run_sound (h : Built nfa ec b) (hs : b.nss2ds.lookup ss = some s)
    {r : List (SrcMarkers × SrcMarkers) × Option ℕ} (hr : b.dfa.run s w = some r) :
    ∃ ss' s' sd, b.nss2ds.lookup ss' = some s' ∧ Described nfa ec b ss' s' sd ∧ r.2 = sd.acc ∧
      ∀ t ∈ ss', ∃ u ∈ ss, Spells nfa.states.automaton u t w := by
  induction w generalizing ss s r with
  | nil =>
    obtain ⟨sd, hdesc⟩ := h.described ss s hs
    rw [DFA.run, hdesc.state] at hr
    obtain rfl := Option.some.inj hr
    exact ⟨ss, s, sd, hs, hdesc, rfl, fun t ht => ⟨t, ht, .refl t⟩⟩
  | cons c w ih =>
    obtain ⟨sd, hdesc⟩ := h.described ss s hs
    rw [DFA.run_cons h.wellFormed hdesc.state] at hr
    obtain ⟨s₁, hs₁, hr⟩ := Option.bind_eq_some_iff.1 hr
    obtain ⟨r', hr', rfl⟩ := Option.map_eq_some_iff.1 hr
    obtain ⟨cr, -, hin, ss₁, hss₁, hlookup⟩ := hdesc.reads.lookup c s₁ hs₁
    obtain ⟨ss', s', sd', hs', hdesc', hacc, hall⟩ := ih hlookup hr'
    refine ⟨ss', s', sd', hs', hdesc', hacc, fun t ht => ?_⟩
    obtain ⟨v, hv, hvt⟩ := hall t ht
    obtain ⟨u, hu, ts, hts, x, hx, hxv⟩ := (h.mem_nfaTransition hss₁).1 hv
    have hvalue := RangeMap.valueAt_of_lookupRangeSubset (NFA.sorted_chars h.ranged u) hts hin
    have hstep : x ∈ nfa.states.automaton.step u (some c) := NFA.mem_step_some.2 ⟨ts, hvalue, hx⟩
    have heps : Spells nfa.states.automaton x v [] :=
      h.sound x (length_states.symm ▸ h.lt u (some c) x hstep) v hxv
    exact ⟨u, hu, ((Spells.single hstep).trans heps).trans hvt⟩

/-- A state is reached that stands for all NFA states that a string leads to. -/
lemma run_complete (h : Built nfa ec b) (hcomplete : nfa.states.EntriesComplete ec)
    (hrefines : ∀ ss, nfa.states.Refines ss) (hs : b.nss2ds.lookup ss = some s)
    (hclosed : ∀ u ∈ ss, ∀ v, Spells nfa.states.automaton u v [] → v ∈ ss) {u : ℕ} (hu : u ∈ ss)
    (hut : Spells nfa.states.automaton u t w) :
    ∃ r ss' s' sd, b.dfa.run s w = some r ∧ b.nss2ds.lookup ss' = some s' ∧ Described nfa ec b ss' s' sd ∧
      r.2 = sd.acc ∧ t ∈ ss' := by
  induction w generalizing ss s u with
  | nil =>
    obtain ⟨sd, hdesc⟩ := h.described ss s hs
    refine ⟨([(sd.begins, sd.ends)], sd.acc), ss, s, sd, ?_, hs, hdesc, rfl, hclosed u hu t hut⟩
    rw [DFA.run, hdesc.state]
    rfl
  | cons c w ih =>
    obtain ⟨sd, hdesc⟩ := h.described ss s hs
    obtain ⟨x, v, hux, hxv, hvt⟩ := spells_cons.1 hut
    obtain ⟨ts, hts, hvts⟩ := NFA.mem_step_some.1 hxv
    have hx : x ∈ ss := hclosed u hu x hux
    -- The character is in a range that is used, and this range leads to a set with the next NFA state.
    have hcovers : Covers (nfa.states.usedCharRanges ss) c := by
      rw [(NFA.usedCharRanges_spec h.ranged).2]
      exact ⟨x, hx, RangeMap.covers_iff_isSome.2 (hts ▸ rfl)⟩
    obtain ⟨cr, hcr, hin⟩ := hcovers
    obtain ⟨s₁, hs₁⟩ := Option.ne_none_iff_exists'.1 (hdesc.reads.covers cr hcr c hin)
    obtain ⟨cr', hcr', hin', ss₁, hss₁, hlookup⟩ := hdesc.reads.lookup c s₁ hs₁
    have hsubset : (nfa.states.chars x).lookupRangeSubset cr' = some ts :=
      (hrefines ss cr' hcr' x hx c hin').trans hts
    have hv : v ∈ ss₁ :=
      (h.mem_nfaTransition hss₁).2 ⟨x, hx, ts, hsubset, v, hvts, (h.entries v (h.lt x (some c) v hxv)).1⟩
    have hclosed₁ : ∀ y ∈ ss₁, ∀ z, Spells nfa.states.automaton y z [] → z ∈ ss₁ := by
      intro y hy z hyz
      obtain ⟨u', hu', ts', hts', y', hy', hyy⟩ := (h.mem_nfaTransition hss₁).1 hy
      have hlt : y' < nfa.length := lt_of_lookupRangeSubset h.ranged h.lt u' cr' ts' hts' y' hy'
      have hlt' : y' < nfa.states.length := length_states.symm ▸ hlt
      exact (h.mem_nfaTransition hss₁).2
        ⟨u', hu', ts', hts', y', hy', hcomplete y' hlt' z ((h.sound y' hlt' y hyy).trans hyz)⟩
    obtain ⟨r, ss', s', sd', hr, hs', hdesc', hacc, ht⟩ := ih hlookup hclosed₁ hv hvt
    refine ⟨((sd.begins, sd.ends) :: r.1, r.2), ss', s', sd', ?_, hs', hdesc', hacc, ht⟩
    rw [DFA.run_cons h.wellFormed hdesc.state, hs₁, Option.bind_some, hr, Option.map_some]

end Built

end Hobbes.Regex
