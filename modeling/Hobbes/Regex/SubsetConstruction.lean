import Hobbes.Regex.EquivStates
import Hobbes.Regex.UsedCharRanges
import Mathlib.Data.Finset.Option

/-!
# From an NFA to a DFA

Sets of NFA states are mapped to distinct DFA states. A state is numbered before its transitions are followed, so that
they can lead back to it, and it is finished after all of them.
-/

namespace Hobbes.Regex

open Core

/-- Which rows of the match a state of the DFA accepts. -/
abbrev RStates := OrderedMap (Finset ℕ)

/-- The states of a DFA that have been made so far, with the sets that they stand for and the rows that they accept. -/
structure DfaBuild where
  nss2ds : List (Finset ℕ × ℕ)
  dfa : DFA
  rstates : RStates

/-- There has to be an entry. -/
def epsState (ec : EpsClosure) (s : ℕ) : Option (Finset ℕ) := if ec s = ∅ then none else some (ec s)

/-- The sets of all elements of a list together. -/
def insertEach {α : Type} (f : α → Option (Finset ℕ)) (xs : List α) : Option (Finset ℕ) :=
  xs.foldlM (fun r x => (f x).map (r ∪ ·)) ∅

/-- The sets of NFA states that a character from a range leads to. -/
def nfaTransition (nfa : NFA) (ec : EpsClosure) (ss : Finset ℕ) (cr : Range UInt8) : Option (Finset ℕ) :=
  insertEach (fun s => ((nfa.chars s).lookupRangeSubset cr).elim (some ∅) (insertEach (epsState ec)))
    (ss.sort (· ≤ ·))

namespace DfaBuild

def empty : DfaBuild := ⟨[], [], ∅⟩

/-- The next state is for the set `ss`. -/
def allocate (ss : Finset ℕ) (b : DfaBuild) : DfaBuild :=
  { b with nss2ds := (ss, b.dfa.length) :: b.nss2ds, dfa := b.dfa ++ [⟨[], none, [], []⟩] }

def insertChars (result : ℕ) (cr : Range UInt8) (ns : ℕ) (b : DfaBuild) : DfaBuild :=
  { b with dfa := b.dfa.modify result fun sd => { sd with chars := sd.chars.insert cr ns } }

/-- A state of the DFA accepts if one of its NFA states does, and what it accepts is its own number. -/
def accept (nfa : MarkedNFA) (result : ℕ) (b : DfaBuild) (s : ℕ) : DfaBuild :=
  (nfa.states.accOf s).elim b fun nr =>
    { b with
      dfa := b.dfa.modify result fun sd => { sd with acc := some result }
      rstates := b.rstates.insert result (insert nr ((b.rstates.lookup result).getD ∅)) }

/-- `m.first` and `m.second` are inserted for each of the markers. -/
def markEach (ms markers : SrcMarkers) : SrcMarkers := ms.foldl (fun markers m => markAll m.1 m.2 markers) markers

/-- A state of the DFA begins and ends what its NFA states do. -/
def mark (nfa : MarkedNFA) (result : ℕ) (b : DfaBuild) (s : ℕ) : DfaBuild :=
  nfa[s]?.elim b fun st =>
    { b with
      dfa := b.dfa.modify result fun sd =>
        { sd with begins := markEach st.begins sd.begins, ends := markEach st.ends sd.ends } }

def finish (nfa : MarkedNFA) (ss : Finset ℕ) (result : ℕ) (b : DfaBuild) : DfaBuild :=
  (ss.sort (· ≤ ·)).foldl (mark nfa result) ((ss.sort (· ≤ ·)).foldl (accept nfa result) b)

end DfaBuild

open DfaBuild

/-- The state for a set of NFA states, which is made with all that it leads to if it has not been made before. -/
def dfaState (nfa : MarkedNFA) (ec : EpsClosure) : ℕ → Finset ℕ → DfaBuild → Option (ℕ × DfaBuild)
  | 0, _, _ => none
  | fuel + 1, ss, b =>
    match b.nss2ds.lookup ss with
    | some s => some (s, b)
    | none =>
      let result := b.dfa.length
      ((nfa.states.usedCharRanges ss).foldlM (fun b cr =>
        (nfaTransition nfa.states ec ss cr).bind fun ss' =>
          (dfaState nfa ec fuel ss' b).map fun r => r.2.insertChars result cr r.1) (b.allocate ss)).map
        fun b => (result, b.finish nfa ss result)

/-- Starting from the eps* start state. -/
def disambiguate (nfa : MarkedNFA) : Option DfaBuild :=
  nfa.states.findEpsClosure.bind fun ec => (epsState ec 0).bind fun ss =>
    (dfaState nfa ec (2 ^ nfa.length + 1) ss .empty).map Prod.snd

/-! ### Sets of states -/

section Transitions

variable {α : Type} {ec : EpsClosure} {nfa : NFA} {n : ℕ}

/-- Where every element has its set, all are put together. -/
lemma exists_insertEach (f : α → Option (Finset ℕ)) (xs : List α) (h : ∀ x ∈ xs, (f x).isSome) :
    ∃ r, insertEach f xs = some r ∧ ∀ t, t ∈ r ↔ ∃ x ∈ xs, ∃ y, f x = some y ∧ t ∈ y := by
  have hfold : ∀ r₀ : Finset ℕ, ∃ r, xs.foldlM (fun r x => (f x).map (r ∪ ·)) r₀ = some r ∧
      ∀ t, t ∈ r ↔ t ∈ r₀ ∨ ∃ x ∈ xs, ∃ y, f x = some y ∧ t ∈ y := by
    induction xs with
    | nil => exact fun r₀ => ⟨r₀, rfl, fun t => by simp⟩
    | cons x xs ih =>
      intro r₀
      obtain ⟨hx, hxs⟩ := List.forall_mem_cons.1 h
      obtain ⟨y, hy⟩ := Option.isSome_iff_exists.1 hx
      obtain ⟨r, hr, hmem⟩ := ih hxs (r₀ ∪ y)
      refine ⟨r, ?_, fun t => ?_⟩
      · rw [List.foldlM_cons, hy]
        exact hr
      · rw [hmem, Finset.mem_union, List.exists_mem_cons_iff, hy, or_assoc]
        simp only [Option.some_inj, exists_eq_left']
  obtain ⟨r, hr, hmem⟩ := hfold ∅
  exact ⟨r, hr, fun t => (hmem t).trans (or_iff_right (Finset.notMem_empty t))⟩

/-- Each state has its entry, and the entries have states. -/
def EntriesOk (n : ℕ) (ec : EpsClosure) : Prop := ∀ s < n, s ∈ ec s ∧ ∀ t ∈ ec s, t < n

lemma epsState_eq (hec : EntriesOk n ec) {s : ℕ} (hs : s < n) : epsState ec s = some (ec s) :=
  if_neg (Finset.ne_empty_of_mem (hec s hs).1)

/-- The transitions of a set of states are found. -/
lemma exists_nfaTransition (hec : EntriesOk n ec)
    (hlt : ∀ s c, ∀ ts, (nfa.chars s).lookupRangeSubset c = some ts → ∀ t ∈ ts, t < n) (ss : Finset ℕ)
    (cr : Range UInt8) :
    ∃ ss', nfaTransition nfa ec ss cr = some ss' ∧ (∀ t ∈ ss', t < n) ∧
      ∀ t, t ∈ ss' ↔ ∃ s ∈ ss, ∃ ts, (nfa.chars s).lookupRangeSubset cr = some ts ∧ ∃ u ∈ ts, t ∈ ec u := by
  have hstates (ts : StateSet) (hts : ∀ t ∈ ts, t < n) :
      ∃ r, insertEach (epsState ec) ts = some r ∧ ∀ t, t ∈ r ↔ ∃ u ∈ ts, t ∈ ec u := by
    obtain ⟨r, hr, hmem⟩ := exists_insertEach (epsState ec) ts fun u hu => by
      rw [epsState_eq hec (hts u hu)]
      rfl
    refine ⟨r, hr, fun t => (hmem t).trans ?_⟩
    constructor
    · rintro ⟨u, hu, y, hy, ht⟩
      rw [epsState_eq hec (hts u hu)] at hy
      exact ⟨u, hu, Option.some.inj hy ▸ ht⟩
    · rintro ⟨u, hu, ht⟩
      exact ⟨u, hu, ec u, epsState_eq hec (hts u hu), ht⟩
  have hmem : ∀ s : ℕ, ∃ r,
      ((nfa.chars s).lookupRangeSubset cr).elim (some ∅) (insertEach (epsState ec)) = some r ∧
        ∀ t, t ∈ r ↔ ∃ ts, (nfa.chars s).lookupRangeSubset cr = some ts ∧ ∃ u ∈ ts, t ∈ ec u := by
    intro s
    cases hts : (nfa.chars s).lookupRangeSubset cr with
    | none => exact ⟨∅, rfl, fun t => by simp⟩
    | some ts =>
      obtain ⟨r, hr, hmem⟩ := hstates ts (hlt s cr ts hts)
      exact ⟨r, hr, fun t => by simp [hmem]⟩
  obtain ⟨ss', hss', hunion⟩ := exists_insertEach
    (fun s => ((nfa.chars s).lookupRangeSubset cr).elim (some ∅) (insertEach (epsState ec))) (ss.sort (· ≤ ·))
    fun s _ => by
      obtain ⟨r, hr, -⟩ := hmem s
      rw [hr]
      rfl
  have hiff : ∀ t, t ∈ ss' ↔
      ∃ s ∈ ss, ∃ ts, (nfa.chars s).lookupRangeSubset cr = some ts ∧ ∃ u ∈ ts, t ∈ ec u := by
    intro t
    rw [hunion]
    constructor
    · rintro ⟨s, hs, y, hy, ht⟩
      obtain ⟨r, hr, hr'⟩ := hmem s
      exact ⟨s, (Finset.mem_sort _).1 hs, (hr' t).1 (Option.some.inj (hr.symm.trans hy) ▸ ht)⟩
    · rintro ⟨s, hs, ht⟩
      obtain ⟨r, hr, hr'⟩ := hmem s
      exact ⟨s, (Finset.mem_sort _).2 hs, r, hr, (hr' t).2 ht⟩
  refine ⟨ss', hss', fun t ht => ?_, hiff⟩
  obtain ⟨s, -, ts, hts, u, hu, htu⟩ := (hiff t).1 ht
  exact (hec u (hlt s cr ts hts u hu)).2 t htu

end Transitions

/-! ### What is finished -/

/-- The rows that are accepted by a set of states. -/
def acceptedRows (nfa : NFA) (ss : Finset ℕ) : Finset ℕ := ss.biUnion fun s => (nfa.accOf s).toFinset

lemma mem_acceptedRows {nfa : NFA} {ss : Finset ℕ} {i : ℕ} :
    i ∈ acceptedRows nfa ss ↔ ∃ s ∈ ss, nfa.accOf s = some i := by
  simp [acceptedRows]

namespace DfaBuild

variable {nfa : MarkedNFA} {ec : EpsClosure} {b b' b'' : DfaBuild} {X Y : Set ℕ} {ss ss' : Finset ℕ} {s t result : ℕ}

/-- Sets keep their numbers, and but for those of `X` states stay as they are. -/
structure Extends (X : Set ℕ) (b b' : DfaBuild) : Prop where
  length : b.dfa.length ≤ b'.dfa.length
  lookup : ∀ ss s, b.nss2ds.lookup ss = some s → b'.nss2ds.lookup ss = some s
  dfa : ∀ s < b.dfa.length, s ∉ X → b'.dfa[s]? = b.dfa[s]?
  rstates : ∀ s < b.dfa.length, s ∉ X → b'.rstates.lookup s = b.rstates.lookup s

lemma Extends.refl (X : Set ℕ) (b : DfaBuild) : Extends X b b :=
  ⟨Nat.le_refl _, fun _ _ h => h, fun _ _ _ => rfl, fun _ _ _ => rfl⟩

lemma Extends.mono (h : Extends X b b') (hXY : X ⊆ Y) : Extends Y b b' :=
  ⟨h.length, h.lookup, fun s hs hmem => h.dfa s hs fun hX => hmem (hXY hX),
    fun s hs hmem => h.rstates s hs fun hX => hmem (hXY hX)⟩

lemma Extends.trans (h : Extends X b b') (h' : Extends X b' b'') : Extends X b b'' where
  length := h.length.trans h'.length
  lookup ss s hs := h'.lookup ss s (h.lookup ss s hs)
  dfa s hs hX := (h'.dfa s (hs.trans_le h.length) hX).trans (h.dfa s hs hX)
  rstates s hs hX := (h'.rstates s (hs.trans_le h.length) hX).trans (h.rstates s hs hX)

/-- What is not yet there need not be kept. -/
lemma Extends.of_fresh (h : Extends X b b') (hX : ∀ s ∈ X, b.dfa.length ≤ s) : Extends ∅ b b' where
  length := h.length
  lookup := h.lookup
  dfa s hs _ := h.dfa s hs fun hmem => Nat.not_lt.2 (hX s hmem) hs
  rstates s hs _ := h.rstates s hs fun hmem => Nat.not_lt.2 (hX s hmem) hs

/-- Nothing but the state `result` is changed. -/
structure Modifies (result : ℕ) (b b' : DfaBuild) : Prop where
  length : b'.dfa.length = b.dfa.length
  nss2ds : b'.nss2ds = b.nss2ds
  dfa : ∀ s, s ≠ result → b'.dfa[s]? = b.dfa[s]?
  rstates : ∀ s, s ≠ result → b'.rstates.lookup s = b.rstates.lookup s

lemma Modifies.refl (result : ℕ) (b : DfaBuild) : Modifies result b b := ⟨rfl, rfl, fun _ _ => rfl, fun _ _ => rfl⟩

lemma Modifies.trans (h : Modifies result b b') (h' : Modifies result b' b'') : Modifies result b b'' where
  length := h'.length.trans h.length
  nss2ds := h'.nss2ds.trans h.nss2ds
  dfa s hs := (h'.dfa s hs).trans (h.dfa s hs)
  rstates s hs := (h'.rstates s hs).trans (h.rstates s hs)

lemma modifies_modify {f : DFAState → DFAState} {rs : RStates}
    (hrs : ∀ s, s ≠ result → rs.lookup s = b.rstates.lookup s) :
    Modifies result b { b with dfa := b.dfa.modify result f, rstates := rs } where
  length := List.length_modify f b.dfa result
  nss2ds := rfl
  dfa _ hs := List.getElem?_modify_ne f b.dfa fun heq => hs heq.symm
  rstates := hrs

lemma Modifies.extends (h : Modifies result b b') : Extends {result} b b' where
  length := h.length.ge
  lookup _ _ hs := by rwa [h.nss2ds]
  dfa s _ hX := h.dfa s hX
  rstates s _ hX := h.rstates s hX

/-- The characters of a state lead to the states of the sets that they lead to. -/
structure Reads (nfa : MarkedNFA) (ec : EpsClosure) (b : DfaBuild) (ss : Finset ℕ) (crs : List (Range UInt8))
    (chars : RangeMap UInt8 ℕ) : Prop where
  sorted : SortedFrom 0 chars.ranges
  lookup : ∀ c t, chars.valueAt c = some t → ∃ cr ∈ crs, cr.Contains c ∧
    ∃ ss', nfaTransition nfa.states ec ss cr = some ss' ∧ b.nss2ds.lookup ss' = some t
  covers : ∀ cr ∈ crs, ∀ c, cr.Contains c → chars.valueAt c ≠ none

lemma Reads.extends {crs : List (Range UInt8)} {chars : RangeMap UInt8 ℕ} (h : Reads nfa ec b ss crs chars)
    (hb : Extends X b b') : Reads nfa ec b' ss crs chars where
  sorted := h.sorted
  lookup c t hc := by
    obtain ⟨cr, hcr, hin, ss', hss', ht⟩ := h.lookup c t hc
    exact ⟨cr, hcr, hin, ss', hss', hb.lookup ss' t ht⟩
  covers := h.covers

/-- One more range is inserted. -/
lemma Reads.insert {crs : List (Range UInt8)} {chars : RangeMap UInt8 ℕ} (h : Reads nfa ec b ss crs chars)
    {cr : Range UInt8} (hcr : cr.Nonempty) (hss' : nfaTransition nfa.states ec ss cr = some ss')
    (ht : b.nss2ds.lookup ss' = some t) : Reads nfa ec b ss (crs ++ [cr]) (chars.insert cr t) where
  sorted := RangeMap.sortedFrom_insert hcr t (Nat.zero_le _) h.sorted
  lookup c u hc := by
    rw [RangeMap.valueAt_insert hcr t h.sorted] at hc
    split_ifs at hc with hin
    · obtain rfl := Option.some.inj hc
      exact ⟨cr, List.mem_append_right _ (List.mem_singleton_self cr), hin, ss', hss', ht⟩
    · obtain ⟨cr', hcr', hrest⟩ := h.lookup c u hc
      exact ⟨cr', List.mem_append_left _ hcr', hrest⟩
  covers cr' hcr' c hc := by
    rw [RangeMap.valueAt_insert hcr t h.sorted]
    split_ifs with hin
    · exact Option.some_ne_none t
    · rcases List.mem_append.1 hcr' with hcr' | hcr'
      · exact h.covers cr' hcr' c hc
      · exact absurd (List.mem_singleton.1 hcr' ▸ hc) hin

/-- A state is what the construction makes of a set. -/
structure Described (nfa : MarkedNFA) (ec : EpsClosure) (b : DfaBuild) (ss : Finset ℕ) (s : ℕ) (sd : DFAState) :
    Prop where
  state : b.dfa[s]? = some sd
  reads : Reads nfa ec b ss (nfa.states.usedCharRanges ss) sd.chars
  acc : sd.acc = if acceptedRows nfa.states ss = ∅ then none else some s
  rows : (b.rstates.lookup s).getD ∅ = acceptedRows nfa.states ss

lemma Described.extends {sd : DFAState} (h : Described nfa ec b ss s sd) (hb : Extends X b b') (hs : s ∉ X) :
    Described nfa ec b' ss s sd := by
  have hlt : s < b.dfa.length := (List.getElem?_eq_some_iff.1 h.state).1
  exact ⟨(hb.dfa s hlt hs).trans h.state, h.reads.extends hb, h.acc, by rw [hb.rstates s hlt hs, h.rows]⟩

/-! ### A state is finished -/

/-- What is accepted is collected. -/
lemma foldl_accept (nfa : MarkedNFA) (result : ℕ) (xs : List ℕ) (b : DfaBuild) {sd : DFAState}
    (hsd : b.dfa[result]? = some sd) :
    Modifies result b (xs.foldl (accept nfa result) b) ∧
      (xs.foldl (accept nfa result) b).dfa[result]? =
        some { sd with acc := if acceptedRows nfa.states xs.toFinset = ∅ then sd.acc else some result } ∧
      ((xs.foldl (accept nfa result) b).rstates.lookup result).getD ∅ =
        (b.rstates.lookup result).getD ∅ ∪ acceptedRows nfa.states xs.toFinset := by
  induction xs generalizing b sd with
  | nil => exact ⟨.refl result b, by simp [hsd, acceptedRows], by simp [acceptedRows]⟩
  | cons x xs ih =>
    cases hacc : nfa.states.accOf x with
    | none =>
      have hskip : accept nfa result b x = b := by rw [accept, hacc]; rfl
      have hrows : acceptedRows nfa.states (x :: xs).toFinset = acceptedRows nfa.states xs.toFinset := by
        ext i
        simp [mem_acceptedRows, hacc]
      rw [List.foldl_cons, hskip, hrows]
      exact ih b hsd
    | some nr =>
      have hstep : accept nfa result b x =
          { b with
            dfa := b.dfa.modify result fun sd => { sd with acc := some result }
            rstates := b.rstates.insert result (insert nr ((b.rstates.lookup result).getD ∅)) } := by
        rw [accept, hacc]
        rfl
      have hrows : acceptedRows nfa.states (x :: xs).toFinset =
          insert nr (acceptedRows nfa.states xs.toFinset) := by
        ext i
        simp [mem_acceptedRows, hacc, eq_comm]
      have hmod : Modifies result b (accept nfa result b x) := by
        rw [hstep]
        exact modifies_modify fun s hs => AList.lookup_insert_ne hs
      have hsd' : (accept nfa result b x).dfa[result]? = some { sd with acc := some result } := by
        rw [hstep, List.getElem?_modify_eq, hsd]
        rfl
      obtain ⟨hmod', hd, hr⟩ := ih _ hsd'
      rw [List.foldl_cons, hrows]
      refine ⟨hmod.trans hmod', hd.trans ?_, hr.trans ?_⟩
      · simp
      · rw [hstep, AList.lookup_insert, Option.getD_some, Finset.insert_union, Finset.union_insert]

lemma foldl_mark (nfa : MarkedNFA) (result : ℕ) (xs : List ℕ) (b : DfaBuild) {sd : DFAState}
    (hsd : b.dfa[result]? = some sd) :
    Modifies result b (xs.foldl (mark nfa result) b) ∧ (xs.foldl (mark nfa result) b).rstates = b.rstates ∧
      ∃ sd', (xs.foldl (mark nfa result) b).dfa[result]? = some sd' ∧ sd'.chars = sd.chars ∧ sd'.acc = sd.acc := by
  induction xs generalizing b sd with
  | nil => exact ⟨.refl result b, rfl, sd, hsd, rfl, rfl⟩
  | cons x xs ih =>
    rw [List.foldl_cons]
    cases hst : nfa[x]? with
    | none =>
      have hskip : mark nfa result b x = b := by rw [mark, hst]; rfl
      rw [hskip]
      exact ih b hsd
    | some st =>
      have hstep : mark nfa result b x =
          { b with
            dfa := b.dfa.modify result fun sd =>
              { sd with begins := markEach st.begins sd.begins, ends := markEach st.ends sd.ends } } := by
        rw [mark, hst]
        rfl
      have hmod : Modifies result b (mark nfa result b x) := by
        rw [hstep]
        exact modifies_modify fun _ _ => rfl
      have hsd' : (mark nfa result b x).dfa[result]? =
          some { sd with begins := markEach st.begins sd.begins, ends := markEach st.ends sd.ends } := by
        rw [hstep, List.getElem?_modify_eq, hsd]
        rfl
      obtain ⟨hmod', hr, sd', hd, hchars, hacc⟩ := ih _ hsd'
      exact ⟨hmod.trans hmod', hr.trans (by rw [hstep]), sd', hd, hchars, hacc⟩

/-- After it has been finished, a state is described. -/
lemma described_finish {sd : DFAState} (hsd : b.dfa[result]? = some sd)
    (hreads : Reads nfa ec b ss (nfa.states.usedCharRanges ss) sd.chars) (hacc : sd.acc = none)
    (hrows : b.rstates.lookup result = none) :
    Modifies result b (b.finish nfa ss result) ∧ ∃ sd', Described nfa ec (b.finish nfa ss result) ss result sd' := by
  obtain ⟨hmod, hd, hr⟩ := foldl_accept nfa result (ss.sort (· ≤ ·)) b hsd
  obtain ⟨hmod', hr', sd', hd', hchars, hacc'⟩ := foldl_mark nfa result (ss.sort (· ≤ ·)) _ hd
  have hset : (ss.sort (· ≤ ·)).toFinset = ss := Finset.sort_toFinset _ _
  rw [hset] at hr hacc' hd
  rw [finish]
  refine ⟨hmod.trans hmod', sd', hd', ?_, hacc'.trans ?_, ?_⟩
  · rw [hchars]
    exact hreads.extends (hmod.trans hmod').extends
  · rw [hacc]
  · rw [hr', hr, hrows, Option.getD_none, Finset.empty_union]

/-! ### What a call makes -/

/-- Numbered sets have states, each state has a set, and no rows are kept for other numbers. -/
structure Ok (n : ℕ) (b : DfaBuild) : Prop where
  lookup : ∀ ss s, b.nss2ds.lookup ss = some s → s < b.dfa.length ∧ ∀ t ∈ ss, t < n
  onto : ∀ s < b.dfa.length, ∃ ss, b.nss2ds.lookup ss = some s
  fresh : ∀ s, b.dfa.length ≤ s → b.rstates.lookup s = none

lemma Modifies.ok {n : ℕ} (h : Modifies result b b') (hb : b.Ok n) (hresult : result < b.dfa.length) : b'.Ok n where
  lookup ss s hs := by
    rw [h.nss2ds] at hs
    rw [h.length]
    exact hb.lookup ss s hs
  onto s hs := by
    rw [h.length] at hs
    rw [h.nss2ds]
    exact hb.onto s hs
  fresh s hs := by
    rw [h.length] at hs
    rw [h.rstates s fun heq => Nat.not_lt.2 hs (heq ▸ hresult)]
    exact hb.fresh s hs

/-- What has been made since `b`: but for those of `X`, new states are described. -/
structure Made (nfa : MarkedNFA) (ec : EpsClosure) (X : Set ℕ) (b b' : DfaBuild) : Prop where
  ok : b'.Ok nfa.length
  kept : Extends X b b'
  new : ∀ ss s, b'.nss2ds.lookup ss = some s →
    b.nss2ds.lookup ss = some s ∨ s ∉ X ∧ b.dfa.length ≤ s ∧ ∃ sd, Described nfa ec b' ss s sd

lemma Made.refl (hb : b.Ok nfa.length) : Made nfa ec X b b := ⟨hb, .refl X b, fun _ _ hs => .inl hs⟩

lemma Made.trans (h : Made nfa ec X b b') (h' : Made nfa ec X b' b'') : Made nfa ec X b b'' where
  ok := h'.ok
  kept := h.kept.trans h'.kept
  new ss s hs := by
    rcases h'.new ss s hs with hold | ⟨hX, hle, hdesc⟩
    · refine (h.new ss s hold).imp_right ?_
      rintro ⟨hX, hle, sd, hsd⟩
      exact ⟨hX, hle, sd, hsd.extends h'.kept hX⟩
    · exact .inr ⟨hX, h.kept.length.trans hle, hdesc⟩

lemma Made.mono (h : Made nfa ec ∅ b b') (hX : ∀ s ∈ X, s < b.dfa.length) : Made nfa ec X b b' where
  ok := h.ok
  kept := h.kept.mono (Set.empty_subset X)
  new ss s hs := by
    refine (h.new ss s hs).imp_right ?_
    rintro ⟨-, hle, hdesc⟩
    exact ⟨fun hmem => Nat.not_lt.2 hle (hX s hmem), hle, hdesc⟩

lemma Modifies.made (h : Modifies result b b') (hb : b.Ok nfa.length) (hresult : result < b.dfa.length) :
    Made nfa ec {result} b b' where
  ok := h.ok hb hresult
  kept := h.extends
  new _ _ hs := .inl (h.nss2ds ▸ hs)

/-- The sets of NFA states that have no number. -/
def missing (n : ℕ) (b : DfaBuild) : Finset (Finset ℕ) :=
  (Finset.range n).powerset.filter fun ss => b.nss2ds.lookup ss = none

lemma Extends.missing (h : Extends X b b') (n : ℕ) : b'.missing n ⊆ b.missing n := by
  intro ss hss
  rw [DfaBuild.missing, Finset.mem_filter] at hss ⊢
  refine ⟨hss.1, ?_⟩
  cases hs : b.nss2ds.lookup ss with
  | none => rfl
  | some s =>
    rw [h.lookup ss s hs] at hss
    cases hss.2

/-- With this much fuel, a set gets its number, and what is new is described. -/
def Makes (nfa : MarkedNFA) (ec : EpsClosure) (fuel : ℕ) : Prop :=
  ∀ (ss : Finset ℕ) (b : DfaBuild), b.Ok nfa.length → (∀ t ∈ ss, t < nfa.length) →
    (b.missing nfa.length).card < fuel →
    ∃ s b', dfaState nfa ec fuel ss b = some (s, b') ∧ Made nfa ec ∅ b b' ∧ b'.nss2ds.lookup ss = some s

/-- The ranges of a state are followed. -/
lemma exists_foldlM (hec : EntriesOk nfa.length ec)
    (hlt : ∀ s c, ∀ ts, (nfa.states.chars s).lookupRangeSubset c = some ts → ∀ t ∈ ts, t < nfa.length) {fuel : ℕ}
    (hmakes : Makes nfa ec fuel) (crs : List (Range UInt8)) (hcrs : ∀ cr ∈ crs, cr.Nonempty) :
    ∀ (before : List (Range UInt8)) (b : DfaBuild) (sd : DFAState), b.Ok nfa.length →
      (b.missing nfa.length).card < fuel → b.dfa[result]? = some sd → Reads nfa ec b ss before sd.chars →
      sd.acc = none → b.rstates.lookup result = none →
      ∃ b', crs.foldlM (fun b cr => (nfaTransition nfa.states ec ss cr).bind fun ss' =>
          (dfaState nfa ec fuel ss' b).map fun r => r.2.insertChars result cr r.1) b = some b' ∧
        Made nfa ec {result} b b' ∧ b'.rstates.lookup result = none ∧
        ∃ sd', b'.dfa[result]? = some sd' ∧ Reads nfa ec b' ss (before ++ crs) sd'.chars ∧ sd'.acc = none := by
  induction crs with
  | nil =>
    intro before b sd hb _ hsd hreads hacc hrows
    exact ⟨b, rfl, .refl hb, hrows, sd, hsd, by rwa [List.append_nil], hacc⟩
  | cons cr crs ih =>
    intro before b sd hb hfuel hsd hreads hacc hrows
    obtain ⟨hcr, hcrs⟩ := List.forall_mem_cons.1 hcrs
    have hresult : result < b.dfa.length := (List.getElem?_eq_some_iff.1 hsd).1
    obtain ⟨ss', hss', hlt', -⟩ := exists_nfaTransition hec hlt ss cr
    obtain ⟨t, b₁, hcall, hmade, ht⟩ := hmakes ss' b hb hlt' hfuel
    have hsd₁ : b₁.dfa[result]? = some sd := (hmade.kept.dfa result hresult (Set.notMem_empty _)).trans hsd
    have hresult₁ : result < b₁.dfa.length := hresult.trans_le hmade.kept.length
    have hmod : Modifies result b₁ (b₁.insertChars result cr t) := modifies_modify fun _ _ => rfl
    have hmade₂ : Made nfa ec {result} b (b₁.insertChars result cr t) :=
      (hmade.mono fun s hs => (Set.mem_singleton_iff.1 hs) ▸ hresult).trans (hmod.made hmade.ok hresult₁)
    have hsd₂ : (b₁.insertChars result cr t).dfa[result]? = some { sd with chars := sd.chars.insert cr t } := by
      rw [insertChars, List.getElem?_modify_eq, hsd₁]
      rfl
    have hreads₂ : Reads nfa ec (b₁.insertChars result cr t) ss (before ++ [cr]) (sd.chars.insert cr t) :=
      ((hreads.extends hmade.kept).insert hcr hss' ht).extends hmod.extends
    have hrows₂ : (b₁.insertChars result cr t).rstates.lookup result = none :=
      (hmade.kept.rstates result hresult (Set.notMem_empty _)).trans hrows
    have hfuel₂ : ((b₁.insertChars result cr t).missing nfa.length).card < fuel :=
      (Finset.card_le_card (hmade₂.kept.missing _)).trans_lt hfuel
    obtain ⟨b', hrun, hmade', hrows', sd', hsd', hreads', hacc'⟩ :=
      ih hcrs (before ++ [cr]) _ _ hmade₂.ok hfuel₂ hsd₂ hreads₂ hacc hrows₂
    refine ⟨b', ?_, hmade₂.trans hmade', hrows', sd', hsd', ?_, hacc'⟩
    · rw [List.foldlM_cons, hss', Option.bind_some, hcall]
      exact hrun
    · rwa [List.append_assoc] at hreads'

/-- A set that has no number yet gets the next one. -/
lemma made_allocate (hb : b.Ok nfa.length) (hss : ∀ t ∈ ss, t < nfa.length) (hnone : b.nss2ds.lookup ss = none) :
    (b.allocate ss).Ok nfa.length ∧ Extends ∅ b (b.allocate ss) ∧
      ∀ ss' s, (b.allocate ss).nss2ds.lookup ss' = some s ↔
        ss' = ss ∧ s = b.dfa.length ∨ b.nss2ds.lookup ss' = some s := by
  have hlookup : ∀ ss' s, (b.allocate ss).nss2ds.lookup ss' = some s ↔
      ss' = ss ∧ s = b.dfa.length ∨ b.nss2ds.lookup ss' = some s := by
    intro ss' s
    rw [allocate, List.lookup_cons]
    by_cases heq : ss' = ss
    · subst heq
      simp [hnone, eq_comm]
    · rw [beq_false_of_ne heq]
      simp [heq]
  have hlen : (b.allocate ss).dfa.length = b.dfa.length + 1 := List.length_append
  refine ⟨⟨fun ss' s hs => ?_, fun s hs => ?_, fun s hs => ?_⟩,
    ⟨?_, fun ss' s hs => ?_, fun s hs _ => ?_, fun _ _ _ => rfl⟩, hlookup⟩
  · rw [hlen]
    rcases (hlookup ss' s).1 hs with ⟨rfl, rfl⟩ | hold
    · exact ⟨Nat.lt_succ_self _, hss⟩
    · exact (hb.lookup ss' s hold).imp_left Nat.lt_succ_of_lt
  · rw [hlen] at hs
    rcases Nat.lt_succ_iff_lt_or_eq.1 hs with hlt | rfl
    · obtain ⟨ss', hss'⟩ := hb.onto s hlt
      exact ⟨ss', (hlookup ss' s).2 (.inr hss')⟩
    · exact ⟨ss, (hlookup ss _).2 (.inl ⟨rfl, rfl⟩)⟩
  · rw [hlen] at hs
    exact hb.fresh s (Nat.le_of_succ_le hs)
  · rw [hlen]
    exact Nat.le_succ _
  · exact (hlookup ss' s).2 (.inr hs)
  · exact List.getElem?_append_left hs

lemma card_missing_allocate (hss : ∀ t ∈ ss, t < nfa.length) (hb : b.Ok nfa.length)
    (hnone : b.nss2ds.lookup ss = none) :
    ((b.allocate ss).missing nfa.length).card < (b.missing nfa.length).card := by
  obtain ⟨-, hext, hlookup⟩ := made_allocate hb hss hnone
  refine Finset.card_lt_card ((Finset.ssubset_iff_of_subset (hext.missing _)).2 ⟨ss, ?_, ?_⟩)
  · rw [missing, Finset.mem_filter, Finset.mem_powerset]
    exact ⟨fun t ht => Finset.mem_range.2 (hss t ht), hnone⟩
  · rw [missing, Finset.mem_filter, (hlookup ss _).2 (.inl ⟨rfl, rfl⟩)]
    exact fun h => Option.some_ne_none _ h.2

/-- The recursion ends, since each call that goes on numbers a set. -/
lemma makes (hec : EntriesOk nfa.length ec) (hranged : nfa.states.Ranged)
    (hlt : ∀ s c, ∀ ts, (nfa.states.chars s).lookupRangeSubset c = some ts → ∀ t ∈ ts, t < nfa.length) (fuel : ℕ) :
    Makes nfa ec fuel := by
  induction fuel with
  | zero => exact fun ss b _ _ hfuel => absurd hfuel (Nat.not_lt_zero _)
  | succ fuel ih =>
    intro ss b hb hss hfuel
    rw [dfaState]
    cases hs : b.nss2ds.lookup ss with
    | some s => exact ⟨s, b, rfl, .refl hb, hs⟩
    | none =>
      obtain ⟨hok, hext, hlookup⟩ := made_allocate hb hss hs
      have hfuel' : ((b.allocate ss).missing nfa.length).card < fuel :=
        Nat.lt_of_lt_of_le (card_missing_allocate hss hb hs) (Nat.le_of_lt_succ hfuel)
      have hnew : (b.allocate ss).dfa[b.dfa.length]? = some ⟨[], none, [], []⟩ := List.getElem?_concat_length
      have hempty : Reads nfa ec (b.allocate ss) ss [] [] :=
        ⟨trivial, fun _ _ h => absurd h (Option.some_ne_none _).symm, List.forall_mem_nil _⟩
      obtain ⟨b', hrun, hmade, hrows, sd, hsd, hreads, hacc⟩ := exists_foldlM hec hlt ih
        (nfa.states.usedCharRanges ss) (NFA.usedCharRanges_spec hranged).1.1 [] (b.allocate ss) _ hok hfuel' hnew hempty
        rfl (hb.fresh _ (Nat.le_refl _))
      obtain ⟨hmod, hdesc⟩ := described_finish hsd hreads hacc hrows
      have hlt' : b.dfa.length < b'.dfa.length := (List.getElem?_eq_some_iff.1 hsd).1
      have hfinish : Made nfa ec {b.dfa.length} b' (b'.finish nfa ss b.dfa.length) := hmod.made hmade.ok hlt'
      have hmade' := hmade.trans hfinish
      refine ⟨b.dfa.length, b'.finish nfa ss b.dfa.length, ?_, ⟨hmade'.ok, ?_, fun ss' s hs' => ?_⟩, ?_⟩
      · dsimp only
        rw [hrun]
        rfl
      · exact (hext.mono (Set.empty_subset _)).trans hmade'.kept |>.of_fresh fun s hs => hs.ge
      · rcases hmade'.new ss' s hs' with hold | ⟨-, hle, hdesc'⟩
        · rcases (hlookup ss' s).1 hold with ⟨rfl, rfl⟩ | hold
          · exact .inr ⟨Set.notMem_empty _, Nat.le_refl _, hdesc⟩
          · exact .inl hold
        · exact .inr ⟨Set.notMem_empty _, hext.length.trans hle, hdesc'⟩
      · exact hmade'.kept.lookup ss _ ((hlookup ss _).2 (.inl ⟨rfl, rfl⟩))

end DfaBuild

end Hobbes.Regex
