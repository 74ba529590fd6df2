import Hobbes.Regex.DfaFunctions
import Hobbes.Regex.RemoveEquivStates
import Hobbes.Regex.SubsetReads

/-!
# The function that regular expressions are translated to

What `makeRegexFn` makes, from the NFA of some expressions to a function that tells the rows whose expression matches
a string.
-/

namespace Hobbes.Regex

open Core

/-! ### Results -/

/-- The results that have been numbered so far, and what they stand for. -/
structure EqResults where
  results : List (Finset ℕ × ℕ)
  rstates : RStates

/-- A state with its ranges made compact, and its result conflated with those of the same rows. -/
def mergeState (fstates : RStates) (m : EqResults) (s : DFAState) : Option (DFAState × EqResults) :=
  let s := { s with chars := s.chars.compact }
  match s.acc with
  | none => some (s, m)
  | some a =>
    (fstates.lookup a).bind fun fsi =>
      match m.results.lookup fsi with
      | some ns => some ({ s with acc := some ns }, m)
      | none =>
        let ns := m.results.length
        some ({ s with acc := some ns }, ⟨(fsi, ns) :: m.results, m.rstates.insert ns fsi⟩)

def mergeCharRangesAndEqResults (dfa : DFA) (fstates : RStates) : Option (DFA × RStates) :=
  (dfa.foldlM (fun (r : DFA × EqResults) s => (mergeState fstates r.2 s).map fun p => (r.1 ++ [p.1], p.2))
    ([], ⟨[], ∅⟩)).map fun r => (r.1, r.2.rstates)

/-! ### Captured groups -/

/-- The names of the groups, in a set. -/
def bnames : Regex → List String → List String
  | .reps, ns => ns
  | .rcharRange _ _, ns => ns
  | .rstar v, ns => v.bnames ns
  | .reither lhs rhs, ns => rhs.bnames (lhs.bnames ns)
  | .rseq lhs rhs, ns => rhs.bnames (lhs.bnames ns)
  | .rbind var defn, ns => defn.bnames (insertOrd (· ≤ ·) (varName var) ns)

def bindingNames (r : Regex) : List String := r.bnames []

/-- The names of the record's members. Without any, the type is `unit`. -/
def regexCaptureBufferType (regexes : List Regex) : List String :=
  regexes.zipIdx.flatMap fun p => p.1.bindingNames.flatMap fun b =>
    [toString p.2 ++ "_begin_" ++ b, toString p.2 ++ "_end_" ++ b]

/-! ### The function -/

structure CRegexes where
  func : DFAFunc
  captureVarsAt : List (List String)
  rstates : RStates

def makeRegexFn (regexes : List Regex) : Option CRegexes :=
  (disambiguate (makeNFA regexes)).bind fun b =>
    (mergeCharRangesAndEqResults b.dfa b.rstates).bind fun r =>
      r.1.findEquivStates.bind fun eqs =>
        (makeDFAFunc (regexCaptureBufferType regexes).isEmpty (r.1.removeEquivStates eqs)).map fun f =>
          ⟨f, regexes.map bindingNames, r.2⟩

/-- The rows that a DFA finds for a string. -/
def DFA.matched (dfa : DFA) (rstates : RStates) (w : List UInt8) : Finset ℕ :=
  (((dfa.run 0 w).bind Prod.snd).bind rstates.lookup).getD ∅

variable {dfa dfa' : DFA} {fstates : RStates} {m m' : EqResults} {w : List UInt8}

lemma mem_matched {rstates : RStates} {i : ℕ} : i ∈ dfa.matched rstates w ↔
    ∃ r k rows, dfa.run 0 w = some r ∧ r.2 = some k ∧ rstates.lookup k = some rows ∧ i ∈ rows := by
  rw [DFA.matched]
  cases dfa.run 0 w with
  | none => simp
  | some r =>
    rw [Option.bind_some]
    cases hk : r.2 with
    | none => simp [hk]
    | some k =>
      rw [Option.bind_some]
      cases hrows : rstates.lookup k with
      | none => simp [hk, hrows]
      | some rows => simp [hk, hrows]

/-! ### Results are merged -/

/-- Results that stand for the same rows. -/
def SameRows (fstates rstates : RStates) (a a' : Option ℕ) : Prop :=
  a = none ∧ a' = none ∨
    ∃ k k' rows, a = some k ∧ a' = some k' ∧ fstates.lookup k = some rows ∧ rstates.lookup k' = some rows

/-- What becomes of a state. -/
structure Merged (fstates rstates : RStates) (s s' : DFAState) : Prop where
  chars : s'.chars = s.chars.compact
  begins : s'.begins = s.begins
  ends : s'.ends = s.ends
  acc : SameRows fstates rstates s.acc s'.acc

/-- Each result stands for its rows, and only numbered results do. -/
structure EqResults.Ok (m : EqResults) : Prop where
  results : ∀ rows k, m.results.lookup rows = some k → m.rstates.lookup k = some rows
  fresh : ∀ k rows, m.rstates.lookup k = some rows → k < m.results.length

lemma SameRows.mono {rstates rstates' : RStates} {a a' : Option ℕ} (h : SameRows fstates rstates a a')
    (hr : ∀ k rows, rstates.lookup k = some rows → rstates'.lookup k = some rows) : SameRows fstates rstates' a a' := by
  refine h.imp_right ?_
  rintro ⟨k, k', rows, ha, ha', hk, hk'⟩
  exact ⟨k, k', rows, ha, ha', hk, hr k' rows hk'⟩

lemma exists_mergeState (hm : m.Ok) (s : DFAState) (hs : ∀ a, s.acc = some a → (fstates.lookup a).isSome) :
    ∃ s' m', mergeState fstates m s = some (s', m') ∧ m'.Ok ∧ Merged fstates m'.rstates s s' ∧
      ∀ k rows, m.rstates.lookup k = some rows → m'.rstates.lookup k = some rows := by
  rw [mergeState]
  cases hacc : s.acc with
  | none => exact ⟨_, m, rfl, hm, ⟨rfl, rfl, rfl, .inl ⟨hacc, rfl⟩⟩, fun _ _ h => h⟩
  | some a =>
    obtain ⟨fsi, hfsi⟩ := Option.isSome_iff_exists.1 (hs a hacc)
    dsimp only
    rw [hfsi, Option.bind_some]
    cases hsi : m.results.lookup fsi with
    | some ns =>
      exact ⟨_, m, rfl, hm, ⟨rfl, rfl, rfl, .inr ⟨a, ns, fsi, hacc, rfl, hfsi, hm.results fsi ns hsi⟩⟩, fun _ _ h => h⟩
    | none =>
      have hkeep : ∀ k rows, m.rstates.lookup k = some rows →
          (m.rstates.insert m.results.length fsi).lookup k = some rows := by
        intro k rows hk
        rw [AList.lookup_insert_ne (Nat.ne_of_lt (hm.fresh k rows hk)), hk]
      refine ⟨_, _, rfl, ⟨fun rows k hk => ?_, fun k rows hk => ?_⟩,
        ⟨rfl, rfl, rfl, .inr ⟨a, _, fsi, hacc, rfl, hfsi, AList.lookup_insert _⟩⟩, hkeep⟩
      · rw [List.lookup_cons] at hk
        by_cases heq : rows = fsi
        · subst heq
          rw [beq_self_eq_true] at hk
          obtain rfl := Option.some.inj hk
          exact AList.lookup_insert _
        · rw [beq_false_of_ne heq] at hk
          exact hkeep k rows (hm.results rows k hk)
      · by_cases heq : k = m.results.length
        · rw [heq]
          exact Nat.lt_succ_self _
        · rw [AList.lookup_insert_ne heq] at hk
          exact Nat.lt_succ_of_lt (hm.fresh k rows hk)

lemma exists_mergeCharRangesAndEqResults (hdfa : ∀ s ∈ dfa, ∀ a, s.acc = some a → (fstates.lookup a).isSome) :
    ∃ dfa' rstates, mergeCharRangesAndEqResults dfa fstates = some (dfa', rstates) ∧
      List.Forall₂ (Merged fstates rstates) dfa dfa' := by
  have hfold : ∀ (ss : DFA) (before after : DFA) (m : EqResults), m.Ok →
      List.Forall₂ (Merged fstates m.rstates) before after →
      (∀ s ∈ ss, ∀ a, s.acc = some a → (fstates.lookup a).isSome) →
      ∃ r : DFA × EqResults,
        ss.foldlM (fun r s => (mergeState fstates r.2 s).map fun p => (r.1 ++ [p.1], p.2)) (after, m) = some r ∧
          List.Forall₂ (Merged fstates r.2.rstates) (before ++ ss) r.1 := by
    intro ss
    induction ss with
    | nil =>
      intro before after m _ hall _
      exact ⟨(after, m), rfl, by rwa [List.append_nil]⟩
    | cons s ss ih =>
      intro before after m hm hall hss
      obtain ⟨hs, hss⟩ := List.forall_mem_cons.1 hss
      obtain ⟨s', m', hstep, hm', hmerged, hkeep⟩ := exists_mergeState hm s hs
      have hall' : List.Forall₂ (Merged fstates m'.rstates) (before ++ [s]) (after ++ [s']) := by
        refine List.rel_append (hall.imp fun s s' h => ?_) (.cons hmerged .nil)
        exact ⟨h.chars, h.begins, h.ends, h.acc.mono hkeep⟩
      obtain ⟨r, hr, hrel⟩ := ih (before ++ [s]) (after ++ [s']) m' hm' hall' hss
      refine ⟨r, ?_, ?_⟩
      · rw [List.foldlM_cons, hstep]
        exact hr
      · rwa [List.append_assoc] at hrel
  obtain ⟨r, hr, hrel⟩ := hfold dfa [] [] ⟨[], ∅⟩
    ⟨fun _ _ h => absurd h (Option.some_ne_none _).symm, fun _ _ h => absurd h (Option.some_ne_none _).symm⟩ .nil hdfa
  refine ⟨r.1, r.2.rstates, ?_, hrel⟩
  rw [mergeCharRangesAndEqResults, hr]
  rfl

/-! ### The merged DFA does the same -/

namespace RangeMap

variable {n : ℕ} {c : RangeMap UInt8 ℕ}

lemma sortedFrom_compact (h : SortedFrom n c.ranges) : SortedFrom n c.compact.ranges := by
  cases c with
  | nil => exact h
  | cons e c => exact sortedFrom_compactFrom h

lemma valueAt_compact (h : SortedFrom n c.ranges) (k : UInt8) : c.compact.valueAt k = c.valueAt k := by
  cases c with
  | nil => rfl
  | cons e c => exact valueAt_compactFrom h k

end RangeMap

section Merge

variable {rstates : RStates}

lemma wellFormed_of_merged (hdfa : dfa.WellFormed) (h : List.Forall₂ (Merged fstates rstates) dfa dfa') :
    dfa'.WellFormed := by
  intro s' hs'
  obtain ⟨i, hi⟩ := List.mem_iff_getElem?.1 hs'
  have hlen := h.length_eq
  obtain ⟨hlt, hs'eq⟩ := List.getElem?_eq_some_iff.1 hi
  have hmerged : Merged fstates rstates (dfa.get ⟨i, hlen ▸ hlt⟩) s' := hs'eq ▸ h.get (hlen ▸ hlt) hlt
  obtain ⟨hsorted, htargets⟩ := hdfa _ (List.getElem_mem (hlen ▸ hlt))
  have hcompact := RangeMap.sortedFrom_compact hsorted.sortedFrom
  rw [hmerged.chars]
  refine ⟨hcompact.sorted, fun e he => ?_⟩
  have hin : e.1.Contains e.1.1 := ⟨Nat.le_refl _, hcompact.sorted.1 e.1 (List.mem_map_of_mem (f := Prod.fst) he)⟩
  have hvalue := RangeMap.valueAt_of_mem hcompact he hin
  rw [RangeMap.valueAt_compact hsorted.sortedFrom] at hvalue
  obtain ⟨r, hr⟩ := DFA.mem_of_valueAt hvalue
  exact hlen ▸ htargets (r, e.2) hr

lemma run_of_merged (hdfa : dfa.WellFormed) (h : List.Forall₂ (Merged fstates rstates) dfa dfa') (s : ℕ)
    (w : List UInt8) :
    Option.Rel (fun r r' => r.1 = r'.1 ∧ SameRows fstates rstates r.2 r'.2) (dfa.run s w) (dfa'.run s w) := by
  have hlen := h.length_eq
  induction w generalizing s with
  | nil =>
    rw [DFA.run, DFA.run]
    rcases Nat.lt_or_ge s dfa.length with hs | hs
    · have hs' : s < dfa'.length := hlen ▸ hs
      have hmerged := h.get hs hs'
      rw [List.getElem?_eq_getElem hs, List.getElem?_eq_getElem hs']
      refine .some ⟨?_, hmerged.acc⟩
      simp only [List.get_eq_getElem] at hmerged
      dsimp only
      rw [hmerged.begins, hmerged.ends]
    · rw [List.getElem?_eq_none hs, List.getElem?_eq_none (hlen ▸ hs)]
      exact .none
  | cons c w ih =>
    rcases Nat.lt_or_ge s dfa.length with hs | hs
    · have hs' : s < dfa'.length := hlen ▸ hs
      have hmerged := h.get hs hs'
      simp only [List.get_eq_getElem] at hmerged
      have hsorted := (hdfa _ (List.getElem_mem hs)).1.sortedFrom
      rw [DFA.run_cons hdfa (List.getElem?_eq_getElem hs),
        DFA.run_cons (wellFormed_of_merged hdfa h) (List.getElem?_eq_getElem hs'), hmerged.chars,
        RangeMap.valueAt_compact hsorted]
      cases dfa[s].chars.valueAt c with
      | none => exact .none
      | some t =>
        rw [Option.bind_some, Option.bind_some]
        have hrel := ih t
        generalize dfa.run t w = r at hrel ⊢
        generalize dfa'.run t w = r' at hrel ⊢
        cases hrel with
        | none => exact .none
        | some hrel =>
          refine .some ⟨?_, hrel.2⟩
          dsimp only
          rw [hmerged.begins, hmerged.ends, hrel.1]
    · rw [DFA.run, DFA.run, List.getElem?_eq_none hs, List.getElem?_eq_none (hlen ▸ hs)]
      exact .none

lemma matched_of_merged (hdfa : dfa.WellFormed) (h : List.Forall₂ (Merged fstates rstates) dfa dfa')
    (w : List UInt8) : dfa'.matched rstates w = dfa.matched fstates w := by
  rw [DFA.matched, DFA.matched]
  have hrel := run_of_merged hdfa h 0 w
  generalize dfa.run 0 w = r at hrel ⊢
  generalize dfa'.run 0 w = r' at hrel ⊢
  cases hrel with
  | none => rfl
  | some hrel =>
    rw [Option.bind_some, Option.bind_some]
    rcases hrel.2 with ⟨ha, ha'⟩ | ⟨k, k', rows, ha, ha', hk, hk'⟩
    · rw [ha, ha']
      rfl
    · rw [ha, ha', Option.bind_some, Option.bind_some, hk, hk']

end Merge

/-! ### What is found -/

namespace Built

variable {nfa : MarkedNFA} {ec : EpsClosure} {b : DfaBuild} {i : ℕ}

/-- What a described state accepts are the rows of its set. -/
lemma lookup_acc {ss : Finset ℕ} {s k : ℕ} {sd : DFAState} (hdesc : DfaBuild.Described nfa ec b ss s sd)
    (hk : sd.acc = some k) :
    b.rstates.lookup k = some (acceptedRows nfa.states ss) ∧ (acceptedRows nfa.states ss).Nonempty := by
  have hacc := hdesc.acc
  rw [hk] at hacc
  split_ifs at hacc with hempty
  obtain rfl := Option.some.inj hacc
  have hrows := hdesc.rows
  cases hlookup : b.rstates.lookup k with
  | none =>
    rw [hlookup] at hrows
    exact absurd hrows.symm hempty
  | some rows =>
    rw [hlookup] at hrows
    exact ⟨congrArg some hrows, Finset.nonempty_iff_ne_empty.2 hempty⟩

lemma isSome_acc (h : Built nfa ec b) : ∀ sd ∈ b.dfa, ∀ k, sd.acc = some k → (b.rstates.lookup k).isSome := by
  intro sd hsd k hk
  obtain ⟨s, hs⟩ := List.mem_iff_getElem?.1 hsd
  obtain ⟨ss, hss⟩ := h.ok.onto s (List.getElem?_eq_some_iff.1 hs).1
  obtain ⟨sd', hdesc⟩ := h.described ss s hss
  obtain rfl := Option.some.inj (hs.symm.trans hdesc.state)
  rw [(lookup_acc hdesc hk).1]
  rfl

/-- Only rows that the NFA accepts are found. -/
lemma matched_sound (h : Built nfa ec b) (hpos : 0 < nfa.length) (hstart : b.nss2ds.lookup (ec 0) = some 0)
    (hi : i ∈ b.dfa.matched b.rstates w) :
    ∃ t, nfa.states.accOf t = some i ∧ Spells nfa.states.automaton 0 t w := by
  obtain ⟨r, k, rows, hr, hk, hrows, hmem⟩ := mem_matched.1 hi
  obtain ⟨ss, s, sd, -, hdesc, hacc, hall⟩ := h.run_sound hstart hr
  rw [(lookup_acc hdesc (hacc ▸ hk)).1] at hrows
  obtain rfl := Option.some.inj hrows
  obtain ⟨t, ht, hti⟩ := mem_acceptedRows.1 hmem
  obtain ⟨u, hu, hut⟩ := hall t ht
  exact ⟨t, hti, (h.sound 0 (length_states.symm ▸ hpos) u hu).trans hut⟩

/-- All rows that the NFA accepts are found. -/
lemma matched_complete (h : Built nfa ec b) (hpos : 0 < nfa.length) (hstart : b.nss2ds.lookup (ec 0) = some 0)
    (hcomplete : nfa.states.EntriesComplete ec) (hrefines : ∀ ss, nfa.states.Refines ss) {t : ℕ}
    (hti : nfa.states.accOf t = some i) (ht : Spells nfa.states.automaton 0 t w) :
    i ∈ b.dfa.matched b.rstates w := by
  have hpos' : 0 < nfa.states.length := length_states.symm ▸ hpos
  have hclosed : ∀ u ∈ ec 0, ∀ v, Spells nfa.states.automaton u v [] → v ∈ ec 0 :=
    fun u hu v huv => hcomplete 0 hpos' v ((h.sound 0 hpos' u hu).trans huv)
  obtain ⟨r, ss, s, sd, hr, -, hdesc, hacc, hmem⟩ :=
    h.run_complete hcomplete hrefines hstart hclosed (h.entries 0 hpos).1 ht
  have hrow : i ∈ acceptedRows nfa.states ss := mem_acceptedRows.2 ⟨t, hmem, hti⟩
  have hk : sd.acc = some s := by rw [hdesc.acc, if_neg (Finset.ne_empty_of_mem hrow)]
  exact mem_matched.2 ⟨r, s, _, hr, hacc.trans hk, (lookup_acc hdesc hk).1, hrow⟩

end Built

/-- What a call of the function for some expressions finds: a result that stands for `rows`, or none if there are no
rows. -/
def CRegexes.Finds (c : CRegexes) (cs : List UInt8) (i e fuel : ℕ) (rows : Finset ℕ) : Prop :=
  ∃ acc, c.func.call cs e fuel i 0 = some (accValue acc) ∧ (acc = none ↔ rows = ∅) ∧
    ∀ k, acc = some k → c.rstates.lookup k = some rows

/-- Without the states that are left out, the start is still the first state, and does the same. -/
lemma exists_minimised (hdfa : dfa.WellFormed) (hpos : 0 < dfa.length) :
    ∃ eqs, dfa.findEquivStates = some eqs ∧ (dfa.removeEquivStates eqs).WellFormed ∧
      0 < (dfa.removeEquivStates eqs).length ∧ ∀ w, (dfa.removeEquivStates eqs).run 0 w = dfa.run 0 w := by
  obtain ⟨eqs, heqs, hok⟩ := DFA.exists_findEquivStates hdfa
  have hzero : DFA.representative eqs 0 = 0 := by
    rw [DFA.representative]
    cases hv : eqs.lookup 0 with
    | none => rfl
    | some v => exact absurd (hok 0 v hv).2.1 (Nat.not_lt_zero v)
  have hstart : DFA.position eqs 0 = 0 := rfl
  refine ⟨eqs, heqs, DFA.wellFormed_removeEquivStates hdfa hok, ?_, fun w => ?_⟩
  · rw [(DFA.removeEquivStates_states dfa eqs).1]
    exact hstart ▸ DFA.position_lt (hzero ▸ DFA.representative_notMem hok 0) hpos
  · rw [← DFA.run_removeEquivStates hdfa hok hpos, hzero, hstart]

lemma accepted_eq (dfa : DFA) (w : List UInt8) : dfa.accepted 0 w = accValue ((dfa.run 0 w).bind Prod.snd) := by
  rw [DFA.accepted]
  cases dfa.run 0 w with
  | none => rfl
  | some r => rfl

/-- A result stands for the rows that are found, and without a result there are none. -/
lemma Built.acc_of_merged {nfa : MarkedNFA} {ec : EpsClosure} {b : DfaBuild} {rstates : RStates}
    (h : Built nfa ec b) (hstart : b.nss2ds.lookup (ec 0) = some 0)
    (hmerged : List.Forall₂ (Merged b.rstates rstates) b.dfa dfa) (w : List UInt8) :
    ((dfa.run 0 w).bind Prod.snd = none ↔ dfa.matched rstates w = ∅) ∧
      ∀ k, (dfa.run 0 w).bind Prod.snd = some k → rstates.lookup k = some (dfa.matched rstates w) := by
  have hrel := run_of_merged h.wellFormed hmerged 0 w
  rw [DFA.matched]
  cases hr : b.dfa.run 0 w with
  | none =>
    rw [hr] at hrel
    generalize dfa.run 0 w = r' at hrel ⊢
    cases hrel
    exact ⟨iff_of_true rfl rfl, fun k hk => absurd hk (Option.some_ne_none k).symm⟩
  | some r =>
    rw [hr] at hrel
    generalize dfa.run 0 w = o at hrel ⊢
    cases hrel with
    | @some _ r' hrel =>
      rw [Option.bind_some]
      rcases hrel.2 with ⟨-, ha'⟩ | ⟨k, k', rows, ha, ha', hk, hk'⟩
      · rw [ha']
        exact ⟨iff_of_true rfl rfl, fun k hk => absurd hk (Option.some_ne_none k).symm⟩
      · obtain ⟨ss, s, sd, -, hdesc, hacc, -⟩ := h.run_sound hstart hr
        obtain ⟨hlookup, hne⟩ := lookup_acc hdesc (hacc ▸ ha)
        obtain rfl := Option.some.inj (hk.symm.trans hlookup)
        rw [ha', Option.bind_some, hk', Option.getD_some]
        refine ⟨iff_of_false (Option.some_ne_none k') hne.ne_empty, fun k hk => ?_⟩
        rw [← Option.some.inj hk, hk']

/-- A function is made, and what it finds are rows whose expression matches. -/
lemma exists_makeRegexFn {regexes : List Regex} (h : ∀ r ∈ regexes, r.Proper) :
    ∃ c, makeRegexFn regexes = some c ∧ ∃ found : List UInt8 → Finset ℕ,
      (∀ (cs : List UInt8) (i e fuel : ℕ), i ≤ e → e ≤ cs.length → e < i + fuel →
        c.Finds cs i e fuel (found ((cs.take e).drop i))) ∧
      (∀ w, ∀ j ∈ found w, ∃ r, regexes[j]? = some r ∧ w ∈ r.built) ∧
      ((∀ r ∈ regexes, r.Progresses) → RangesApart regexes →
        ∀ w j r, regexes[j]? = some r → w ∈ r.built → j ∈ found w) := by
  obtain ⟨rows, hrows, hnfa⟩ := exists_hasRows h
  have hpos : 0 < (makeNFA regexes).length := length_states ▸ hnfa.pos
  obtain ⟨ec, b, hb, hbuilt, hstart, hcomplete⟩ := exists_disambiguate hnfa.ranged hpos
    fun s a t ht => length_states ▸ hnfa.lt s a t ht
  obtain ⟨dfa, rstates, hmerge, hmerged⟩ := exists_mergeCharRangesAndEqResults hbuilt.isSome_acc
  have hdfa := wellFormed_of_merged hbuilt.wellFormed hmerged
  have hpos' : 0 < dfa.length := hmerged.length_eq ▸ (hbuilt.ok.lookup _ _ hstart).1
  obtain ⟨eqs, heqs, hmin, hmin', hrun⟩ := exists_minimised hdfa hpos'
  obtain ⟨f, hf, -⟩ := makeDFAFunc_eq hmin (regexCaptureBufferType regexes).isEmpty (e := 0) (i := 0)
    (Nat.zero_le ([] : List UInt8).length) (Nat.le_refl 0) (show 0 < 0 + 1 from Nat.zero_lt_one) hmin'
  have hmatched := matched_of_merged hbuilt.wellFormed hmerged
  refine ⟨⟨f, regexes.map bindingNames, rstates⟩, ?_, dfa.matched rstates, ?_, ?_, ?_⟩
  · rw [makeRegexFn, hb, Option.bind_some, hmerge, Option.bind_some, heqs, Option.bind_some, hf]
    rfl
  · intro cs i e fuel hi he hfuel
    obtain ⟨f', hf', hcall⟩ := makeDFAFunc_eq hmin (regexCaptureBufferType regexes).isEmpty he hi hfuel hmin'
    obtain rfl := Option.some.inj (hf.symm.trans hf')
    rw [accepted_eq, hrun] at hcall
    exact ⟨_, hcall, hbuilt.acc_of_merged hstart hmerged _⟩
  · intro w j hj
    rw [hmatched] at hj
    exact (exists_spells_iff h).1 (hbuilt.matched_sound hpos hstart hj)
  · intro hprogress hapart w j r hr hw
    obtain ⟨t, hacc, ht⟩ := (exists_spells_iff h).2 ⟨r, hr, hw⟩
    rw [hmatched]
    have hmem : ∀ row ∈ rows, row.regex ∈ regexes := fun row hrow =>
      List.fst_mem_of_mem_zipIdx (hrows ▸ List.mem_map_of_mem hrow : (row.regex, row.idx) ∈ regexes.zipIdx)
    refine hbuilt.matched_complete hpos hstart (hcomplete fun s => ?_) (fun ss => ?_) hacc ht
    · exact hnfa.not_epsCycle (fun row hrow => hprogress _ (hmem row hrow)) s
    · exact NFA.refines_of_singleRanges (singleRanges_makeNFA regexes) (nonempty_charRanges h) hapart ss

/-- From any place of a string, the function that is made for some expressions finds a result that stands for rows whose
expression reads the rest of the string, or it finds none. -/
theorem makeRegexFn_finds {regexes : List Regex} (h : ∀ r ∈ regexes, r.Proper) :
    ∃ c, makeRegexFn regexes = some c ∧ ∀ (cs : List UInt8) (i e fuel : ℕ), i ≤ e → e ≤ cs.length → e < i + fuel →
      ∃ rows : Finset ℕ, c.Finds cs i e fuel rows ∧
        ∀ j ∈ rows, ∃ r, regexes[j]? = some r ∧ (cs.take e).drop i ∈ r.built := by
  obtain ⟨c, hc, found, hfinds, hsound, -⟩ := exists_makeRegexFn h
  exact ⟨c, hc, fun cs i e fuel hi he hfuel => ⟨_, hfinds cs i e fuel hi he hfuel, hsound _⟩⟩

theorem makeRegexFn_finds_if : ∃ c, makeRegexFn wordRows = some c ∧ ∃ rows : Finset ℕ,
    c.Finds [105, 102] 0 2 3 rows ∧ ∀ j ∈ rows, ∃ r, wordRows[j]? = some r ∧ [105, 102] ∈ r.built := by
  obtain ⟨c, hc, hfinds⟩ := makeRegexFn_finds proper_wordRows
  exact ⟨c, hc, hfinds [105, 102] 0 2 3 (by decide) (by decide) (by decide)⟩

/-- Where nothing empty is repeated, no loop begins where another one does and no ranges overlap, these are just the
rows whose expression denotes the rest of the string. -/
theorem makeRegexFn_exact {regexes : List Regex} (h : ∀ r ∈ regexes, r.Proper ∧ r.Progresses ∧ r.LoopsApart)
    (hapart : RangesApart regexes) :
    ∃ c, makeRegexFn regexes = some c ∧ ∀ (cs : List UInt8) (i e fuel : ℕ), i ≤ e → e ≤ cs.length → e < i + fuel →
      ∃ rows : Finset ℕ, c.Finds cs i e fuel rows ∧
        ∀ j, j ∈ rows ↔ ∃ r, regexes[j]? = some r ∧ (cs.take e).drop i ∈ r.lang := by
  obtain ⟨c, hc, found, hfinds, hsound, hcomplete⟩ := exists_makeRegexFn fun r hr => (h r hr).1
  have hlang : ∀ (j : ℕ) (r : Regex), regexes[j]? = some r → r.built = r.lang :=
    fun j r hr => built_eq_lang (h r (List.mem_of_getElem? hr)).2.2
  refine ⟨c, hc, fun cs i e fuel hi he hfuel => ⟨_, hfinds cs i e fuel hi he hfuel, fun j => ⟨fun hj => ?_, ?_⟩⟩⟩
  · obtain ⟨r, hr, hw⟩ := hsound _ j hj
    exact ⟨r, hr, hlang j r hr ▸ hw⟩
  · rintro ⟨r, hr, hw⟩
    exact hcomplete (fun r hr => (h r hr).2.1) hapart _ j r hr ((hlang j r hr).symm ▸ hw)

/-- Both rows are found for the word `if`. -/
theorem makeRegexFn_exact_if : ∃ c, makeRegexFn wordRows = some c ∧ ∃ rows : Finset ℕ,
    c.Finds [105, 102] 0 2 3 rows ∧ 0 ∈ rows ∧ 1 ∈ rows := by
  have hrows : ∀ r ∈ wordRows, r.Progresses ∧ r.LoopsApart := List.forall_mem_cons.2
    ⟨⟨⟨not_false, trivial⟩, not_false, trivial⟩,
      List.forall_mem_singleton.2 ⟨⟨trivial, trivial⟩, trivial, trivial⟩⟩
  obtain ⟨c, hc, hfinds⟩ := makeRegexFn_exact (fun r hr => ⟨proper_wordRows r hr, hrows r hr⟩) rangesApart_wordRows
  obtain ⟨rows, hfound, hiff⟩ := hfinds [105, 102] 0 2 3 (by decide) (by decide) (by decide)
  refine ⟨c, hc, rows, hfound, (hiff 0).2 ⟨_, rfl, ?_⟩, (hiff 1).2 ⟨_, rfl, ?_⟩⟩
  · refine Language.mem_kstar.2 ⟨[[105], [102]], rfl, List.forall_mem_cons.2 ⟨?_, List.forall_mem_singleton.2 ?_⟩⟩
    · exact ⟨105, by decide, by decide, rfl⟩
    · exact ⟨102, by decide, by decide, rfl⟩
  · exact Language.append_mem_mul (a := [105]) (b := [102]) ⟨105, by decide, by decide, rfl⟩
      ⟨102, by decide, by decide, rfl⟩

end Hobbes.Regex
