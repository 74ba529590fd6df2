import Hobbes.Regex.NfaRows
import Hobbes.Regex.RangePieces
import Mathlib.Data.Finset.Sort

/-!
# The ranges that a set of states reads

Each state of an NFA has at most one range, and it is written in one of the expressions. So if these do not overlap,
the ranges that are used for a set of states refine those of all its states.
-/

namespace Hobbes.Regex

open RangeOrd LawfulRangeOrd

/-! ### What is looked up -/

namespace RangeMap

variable {K V : Type} [RangeOrd K] [LawfulRangeOrd K] {m : RangeMap K V} {n : ℕ} {e : Range K × V} {k : K}

/-- What is found for a key has it. -/
lemma contains_of_find [DecidableEq K] (hm : SortedFrom n m.ranges) (h : m[m.find k]? = some e) :
    e ∈ m ∧ e.1.Contains k := by
  induction m generalizing n with
  | nil => cases h
  | cons e' m ih =>
    rw [find_cons hm] at h
    split_ifs at h with hin hbefore
    · obtain rfl := Option.some.inj h
      exact ⟨List.mem_cons_self, hin⟩
    · rw [List.getElem?_cons_succ, List.getElem?_eq_none (Nat.le_refl _)] at h
      cases h
    · rw [List.getElem?_cons_succ] at h
      exact (ih hm.2.2 h).imp_left (List.mem_cons_of_mem e')

lemma valueAt_of_mem (hm : SortedFrom n m.ranges) (he : e ∈ m) (hk : e.1.Contains k) : m.valueAt k = some e.2 := by
  induction m generalizing n with
  | nil => exact absurd he List.not_mem_nil
  | cons e' m ih =>
    obtain ⟨r, v⟩ := e'
    rw [valueAt]
    rcases List.mem_cons.1 he with rfl | he
    · rw [if_pos hk]
    · have hle : rank r.2 + 1 ≤ rank e.1.1 := hm.2.2.le (List.mem_map_of_mem (f := Prod.fst) he)
      have hout : ¬ r.Contains k := by
        unfold Range.Contains at hk ⊢
        omega
      rw [if_neg hout]
      exact ih hm.2.2 he

/-- The keys of the ranges are those that have a value. -/
lemma covers_iff_isSome : Covers m.ranges k ↔ (m.valueAt k).isSome := by
  induction m with
  | nil => exact iff_of_false covers_nil.1 Bool.false_ne_true
  | cons e' m ih =>
    obtain ⟨r, w⟩ := e'
    rw [ranges_cons, covers_cons, valueAt]
    split_ifs with hin
    · exact iff_of_true (.inl hin) rfl
    · rw [or_iff_right hin, ih]

/-- What is looked up for a range is what is looked up for each of its keys. -/
lemma valueAt_of_lookupRangeSubset [DecidableEq K] (hm : SortedFrom n m.ranges) {kr : Range K} {v : V}
    (h : m.lookupRangeSubset kr = some v) (hk : kr.Contains k) : m.valueAt k = some v := by
  rw [lookupRangeSubset] at h
  split_ifs at h with hsame
  obtain ⟨e, he, rfl⟩ := Option.map_eq_some_iff.1 h
  obtain ⟨hmem, hfirst⟩ := contains_of_find hm he
  obtain ⟨-, hlast⟩ := contains_of_find hm (hsame ▸ he)
  exact valueAt_of_mem hm hmem ⟨hfirst.1.trans hk.1, hk.2.trans hlast.2⟩

end RangeMap

/-! ### The ranges of states -/

namespace NFA

def chars (nfa : NFA) (s : ℕ) : RangeMap UInt8 StateSet := (nfa[s]?).elim [] NFAState.chars

/-- For a set of states, ranges that do not overlap. -/
def usedCharRanges (nfa : NFA) (ss : Finset ℕ) : List (Range UInt8) :=
  (ss.sort (· ≤ ·)).foldl (fun rs s => (nfa.chars s).disjointRanges rs) []

/-- Each state has at most one range, and it is one of `rs`. -/
def SingleRanges (nfa : NFA) (rs : List (Range UInt8)) : Prop :=
  ∀ s, nfa.chars s = [] ∨ ∃ r ∈ rs, ∃ v, nfa.chars s = [(r, v)]

/-- Each range that is used for a set of states is looked up as a whole in all of them. -/
def Refines (nfa : NFA) (ss : Finset ℕ) : Prop :=
  ∀ cr ∈ nfa.usedCharRanges ss, ∀ s ∈ ss, ∀ c, cr.Contains c →
    (nfa.chars s).lookupRangeSubset cr = (nfa.chars s).valueAt c

variable {nfa : NFA} {ss : Finset ℕ}

lemma sorted_chars (h : nfa.Ranged) (s : ℕ) : SortedFrom 0 (nfa.chars s).ranges := by
  rw [chars]
  cases hs : nfa[s]? with
  | none => trivial
  | some st => exact h st (List.mem_of_getElem? hs)

/-- The ranges that are used are in order, and have the characters that the states read. -/
lemma usedCharRanges_spec (h : nfa.Ranged) : Sorted (nfa.usedCharRanges ss) ∧
    ∀ c, Covers (nfa.usedCharRanges ss) c ↔ ∃ s ∈ ss, Covers (nfa.chars s).ranges c := by
  have hfold : ∀ (l : List ℕ) (rs : List (Range UInt8)), SortedFrom 0 rs →
      SortedFrom 0 (l.foldl (fun rs s => (nfa.chars s).disjointRanges rs) rs) ∧
      ∀ c, Covers (l.foldl (fun rs s => (nfa.chars s).disjointRanges rs) rs) c ↔
        Covers rs c ∨ ∃ s ∈ l, Covers (nfa.chars s).ranges c := by
    intro l
    induction l with
    | nil => exact fun rs hrs => ⟨hrs, fun c => by simp⟩
    | cons s l ih =>
      intro rs hrs
      have hsweeps : Sweeps (nfa.chars s).ranges rs ((nfa.chars s).disjointRanges rs) :=
        sweeps_sweep (sorted_chars h s) hrs
      obtain ⟨hsorted, hcovers⟩ := ih _ (hsweeps.sortedFrom (sorted_chars h s) hrs)
      refine ⟨hsorted, fun c => ?_⟩
      rw [List.foldl_cons, hcovers, hsweeps.covers_iff (sorted_chars h s) hrs, List.exists_mem_cons_iff,
        or_comm (b := Covers rs c), or_assoc]
  obtain ⟨hsorted, hcovers⟩ := hfold (ss.sort (· ≤ ·)) [] trivial
  refine ⟨hsorted.sorted, fun c => ?_⟩
  rw [usedCharRanges, hcovers, covers_nil, false_or]
  simp only [Finset.mem_sort]

/-- Where no ranges overlap, the ranges that are used refine those of all states. -/
lemma refines_of_singleRanges {rs : List (Range UInt8)} (h : nfa.SingleRanges rs) (hne : ∀ r ∈ rs, r.Nonempty)
    (hover : ∀ r ∈ rs, ∀ r' ∈ rs, ¬ Overlap r r') (ss : Finset ℕ) : nfa.Refines ss := by
  have hfold : ∀ (l : List ℕ) (qs out : List (Range UInt8)), qs ⊆ rs → Pieces qs out →
      ∃ qs', Pieces qs' (l.foldl (fun rs s => (nfa.chars s).disjointRanges rs) out) ∧ qs ⊆ qs' ∧
        ∀ s ∈ l, (nfa.chars s).ranges ⊆ qs' := by
    intro l
    induction l with
    | nil => exact fun qs out _ hout => ⟨qs, hout, List.Subset.refl qs, List.forall_mem_nil _⟩
    | cons s l ih =>
      intro qs out hqs hout
      rcases h s with hs | ⟨r, hr, v, hs⟩
      · obtain ⟨qs', hout', hsub, hl⟩ := ih qs out hqs hout
        have hsame : (nfa.chars s).disjointRanges out = out := by rw [hs, RangeMap.disjointRanges]; exact sweep.eq_1 out
        refine ⟨qs', ?_, hsub, List.forall_mem_cons.2 ⟨?_, hl⟩⟩
        · rwa [List.foldl_cons, hsame]
        · rw [hs]
          exact List.nil_subset qs'
      · have hranges : (nfa.chars s).ranges = [r] := by rw [hs]; rfl
        have hcons := hout.cons (hne r hr) (fun q hq => ⟨hover q (hqs hq) r hr, hover r hr q (hqs hq)⟩) hranges
        obtain ⟨qs', hout', hsub, hl⟩ := ih (r :: qs) _ (List.cons_subset.2 ⟨hr, hqs⟩) hcons
        obtain ⟨hmem, hsub⟩ := List.cons_subset.1 hsub
        refine ⟨qs', hout', hsub, List.forall_mem_cons.2 ⟨?_, hl⟩⟩
        rw [hranges]
        exact List.cons_subset.2 ⟨hmem, List.nil_subset qs'⟩
  obtain ⟨qs, hpieces, -, hall⟩ := hfold (ss.sort (· ≤ ·)) [] [] (List.nil_subset rs) pieces_nil
  intro cr hcr s hs c hc
  have hsub := hall s ((Finset.mem_sort _).2 hs)
  have hsorted : SortedFrom 0 (nfa.chars s).ranges := by
    rcases h s with hs | ⟨r, hr, v, hs⟩
    · rw [hs]
      trivial
    · rw [hs]
      exact ⟨Nat.zero_le _, hne r hr, trivial⟩
  rw [lookupRangeSubset_eq hsorted.sorted (hpieces.sorted.1 cr hcr)
    (fun r hr => hpieces.refines cr hcr r (hsub hr)) hc, RangeMap.lookup_eq_valueAt hsorted]

end NFA

/-! ### The ranges of an expression's states -/

/-- The ranges that are written in an expression. -/
def charRanges : Regex → List (Range UInt8)
  | .reps => []
  | .rcharRange b e => [(b, e)]
  | .rstar v => v.charRanges
  | .reither lhs rhs => lhs.charRanges ++ rhs.charRanges
  | .rseq lhs rhs => lhs.charRanges ++ rhs.charRanges
  | .rbind _ defn => defn.charRanges

lemma nonempty_of_proper {r : Regex} (h : r.Proper) : ∀ q ∈ r.charRanges, q.Nonempty := by
  induction r with
  | reps => exact List.forall_mem_nil _
  | rcharRange b e => exact List.forall_mem_singleton.2 (UInt8.le_iff_toNat_le.mp h)
  | rstar v ih => exact ih h
  | reither lhs rhs ihl ihr => exact List.forall_mem_append.2 ⟨ihl h.1, ihr h.2⟩
  | rseq lhs rhs ihl ihr => exact List.forall_mem_append.2 ⟨ihl h.1, ihr h.2⟩
  | rbind var defn ih => exact ih h

/-- There is at most one range, and it is one of `rs`. -/
def Single (rs : List (Range UInt8)) (m : RangeMap UInt8 StateSet) : Prop := m = [] ∨ ∃ r ∈ rs, ∃ v, m = [(r, v)]

/-- The states before `nfa.length` but for those of `W` keep their ranges, and where there was no range there is at
most one. -/
structure AddsRanges (rs : List (Range UInt8)) (W : Set ℕ) (nfa nfa' : MarkedNFA) : Prop where
  length : nfa.length ≤ nfa'.length
  same : ∀ s < nfa.length, s ∉ W → nfa'.states.chars s = nfa.states.chars s
  single : ∀ s, nfa.states.chars s = [] → Single rs (nfa'.states.chars s)

section AddsRanges

open MarkedNFA MarkedState

variable {nfa nfa' nfa'' : MarkedNFA} {rs rs' : List (Range UInt8)} {W W' : Set ℕ} {s : ℕ}

lemma Single.mono {m : RangeMap UInt8 StateSet} (h : Single rs m) (hrs : rs ⊆ rs') : Single rs' m := by
  refine h.imp_right ?_
  rintro ⟨r, hr, v, rfl⟩
  exact ⟨r, hrs hr, v, rfl⟩

lemma chars_states : nfa.states.chars s = nfa[s]?.elim [] fun st => st.chars := by
  rw [NFA.chars, states, List.getElem?_map]
  cases nfa[s]? <;> rfl

lemma chars_of_le (hs : nfa.length ≤ s) : nfa.states.chars s = [] := by
  rw [chars_states, List.getElem?_eq_none hs]
  rfl

lemma chars_append (nfa : MarkedNFA) {st : MarkedState} (hst : st.chars = []) :
    (nfa ++ [st]).states.chars s = nfa.states.chars s := by
  rcases Nat.lt_trichotomy s nfa.length with hs | rfl | hs
  · rw [chars_states, chars_states, List.getElem?_append_left hs]
  · rw [chars_of_le (Nat.le_refl _), chars_states, List.getElem?_concat_length]
    exact hst
  · rw [chars_of_le (Nat.le_of_lt hs), chars_of_le]
    rw [List.length_append]
    exact hs

lemma chars_modify {f : MarkedState → MarkedState} (hf : ∀ st, (f st).chars = st.chars) (u : ℕ) :
    (states (nfa.modify u f)).chars s = nfa.states.chars s := by
  rw [chars_states, chars_states, List.getElem?_modify]
  cases nfa[s]? with
  | none => rfl
  | some st =>
    by_cases hu : u = s
    · simp [hu, hf]
    · simp [hu]

lemma AddsRanges.mono (h : AddsRanges rs W nfa nfa') (hrs : rs ⊆ rs') (hW : W ⊆ W') : AddsRanges rs' W' nfa nfa' :=
  ⟨h.length, fun s hs hmem => h.same s hs fun hw => hmem (hW hw), fun s hs => (h.single s hs).mono hrs⟩

lemma AddsRanges.refl (rs : List (Range UInt8)) (W : Set ℕ) (nfa : MarkedNFA) : AddsRanges rs W nfa nfa :=
  ⟨Nat.le_refl _, fun _ _ _ => rfl, fun _ hs => .inl hs⟩

/-- Where something else of a state is changed, the ranges stay. -/
lemma AddsRanges.modify (h : AddsRanges rs W nfa nfa') (f : MarkedState → MarkedState)
    (hf : ∀ st, (f st).chars = st.chars) (u : ℕ) : AddsRanges rs W nfa (nfa'.modify u f) where
  length := by
    rw [List.length_modify]
    exact h.length
  same s hs hW := (chars_modify hf u).trans (h.same s hs hW)
  single s hs := by
    rw [chars_modify hf u]
    exact h.single s hs

/-- What is added to states that have been kept. -/
lemma AddsRanges.trans (h : AddsRanges rs ∅ nfa nfa') (h' : AddsRanges rs W nfa' nfa'')
    (hW : ∀ s ∈ W, s < nfa.length) : AddsRanges rs W nfa nfa'' where
  length := h.length.trans h'.length
  same s hs hmem := (h'.same s (hs.trans_le h.length) hmem).trans (h.same s hs (Set.notMem_empty s))
  single s hs := by
    by_cases hlt : s < nfa'.length ∧ s ∉ W
    · rw [h'.same s hlt.1 hlt.2]
      exact h.single s hs
    · rw [not_and_or, not_not] at hlt
      refine h'.single s (hlt.elim (fun hle => chars_of_le (Nat.not_lt.1 hle)) fun hmem => ?_)
      rw [h.same s (hW s hmem) (Set.notMem_empty s), hs]

lemma addsRanges_regexBefore {r : Regex} {succ : ℕ} (id : ℕ) (nfa : MarkedNFA)
    (hlink : ∀ (nfa : MarkedNFA) (self : ℕ), self < nfa.length →
      AddsRanges r.charRanges {self} nfa (r.linkState self succ id nfa)) :
    AddsRanges r.charRanges ∅ nfa (regexBefore r succ id nfa).2 := by
  have hlen : nfa.length < (nfa ++ [MarkedState.empty]).length := by
    rw [List.length_append]
    exact Nat.lt_succ_self _
  have hadds := hlink (nfa ++ [.empty]) nfa.length hlen
  refine ⟨hlen.le.trans hadds.length, fun s hs _ => ?_, fun s hs => hadds.single s (by rwa [chars_append nfa rfl])⟩
  exact (hadds.same s (hs.trans hlen) (Nat.ne_of_lt hs)).trans (chars_append nfa rfl)

/-- An expression gives each of its states at most one of its ranges. -/
lemma addsRanges_linkState (r : Regex) {self : ℕ} {nfa : MarkedNFA} (hself : self < nfa.length) (succ id : ℕ) :
    AddsRanges r.charRanges {self} nfa (r.linkState self succ id nfa) := by
  induction r generalizing nfa self succ with
  | reps => exact (AddsRanges.refl [] {self} nfa).modify (addEps succ) (fun _ => rfl) self
  | rcharRange b e =>
    have hchars (s : ℕ) : ((rcharRange b e).linkState self succ id nfa).states.chars s =
        if self = s then (nfa.states.chars s).mergeRange (insertState succ) (b, e) else nfa.states.chars s := by
      rw [linkState, chars_states, chars_states, List.getElem?_modify]
      cases hst : nfa[s]? with
      | none =>
        have hne : self ≠ s := by
          rintro rfl
          exact Nat.not_le.2 hself (List.getElem?_eq_none_iff.1 hst)
        rw [if_neg hne]
        rfl
      | some st =>
        by_cases heq : self = s
        · simp [heq, addChars]
        · simp [heq]
    have hlen : (nfa.modify self (addChars b e succ)).length = nfa.length := List.length_modify _ _ _
    refine ⟨hlen.ge, fun s _ hs => ?_, fun s hs => ?_⟩
    · rw [hchars, if_neg fun heq => hs heq.symm]
    · rw [hchars, hs]
      split_ifs
      · exact .inr ⟨(b, e), List.mem_singleton_self _, _, rfl⟩
      · exact .inl rfl
  | rstar v ih => exact (ih hself self).modify (addEps succ) (fun _ => rfl) self
  | reither lhs rhs ihl ihr =>
    have hl := addsRanges_regexBefore id nfa fun nfa self hself => ihl hself succ
    have hr := addsRanges_regexBefore id (regexBefore lhs succ id nfa).2
      fun nfa self hself => ihr hself succ
    have hboth := (hl.mono (List.subset_append_left _ _) (Set.Subset.refl ∅)).trans
      (hr.mono (List.subset_append_right _ _) (Set.empty_subset {self})) fun s hs => hs ▸ hself
    exact (hboth.modify (addEps _) (fun _ => rfl) self).modify (addEps _) (fun _ => rfl) self
  | rseq lhs rhs ihl ihr =>
    have hr := addsRanges_regexBefore id nfa fun nfa self hself => ihr hself succ
    have hl := ihl (hself.trans_le hr.length) nfa.length
    exact (hr.mono (List.subset_append_right _ _) (Set.Subset.refl ∅)).trans
      (hl.mono (List.subset_append_left _ _) (Set.Subset.refl _)) fun s hs => hs ▸ hself
  | rbind var defn ih =>
    have hbegin := (AddsRanges.refl defn.charRanges ∅ nfa).modify (beginMark id var)
      (fun _ => rfl) self
    have hself' : self < (nfa.modify self (beginMark id var)).length := by rwa [List.length_modify]
    exact (hbegin.trans (ih hself' succ) fun s hs => hs ▸ hself).modify (endMark id var) (fun _ => rfl) succ

/-- Each state of the NFA has at most one range, and it is written in one of the expressions. -/
lemma singleRanges_makeNFA (regexes : List Regex) :
    (makeNFA regexes).states.SingleRanges (regexes.flatMap charRanges) := by
  have hfold : ∀ ps : List (Regex × ℕ), (∀ p ∈ ps, p.1 ∈ regexes) →
      NFA.SingleRanges (states (ps.foldl (fun nfa p => addRow p.1 p.2 nfa) [.empty]))
        (regexes.flatMap charRanges) := by
    intro ps
    induction ps using List.reverseRecOn with
    | nil =>
      intro _ s
      rw [List.foldl_nil]
      exact .inl ((chars_append [] rfl).trans (chars_of_le (Nat.zero_le s)))
    | append_singleton ps p ih =>
      intro hps s
      obtain ⟨hps, hp⟩ := List.forall_mem_append.1 hps
      have hmem : p.1.charRanges ⊆ regexes.flatMap charRanges :=
        fun q hq => List.mem_flatMap.2 ⟨p.1, hp p (List.mem_singleton_self p), hq⟩
      rw [List.foldl_append]
      generalize ps.foldl (fun nfa p => addRow p.1 p.2 nfa) [MarkedState.empty] = nfa at ih ⊢
      have hadds := ((addsRanges_regexBefore p.2 (nfa ++ [acceptState p.2])
        fun nfa' self hself => addsRanges_linkState p.1 hself nfa.length p.2).modify
          (addEps (accumRegex p.1 p.2 nfa).1) (fun _ => rfl) 0).mono hmem (Set.Subset.refl ∅)
      have hlen : (nfa ++ [acceptState p.2]).length = nfa.length + 1 := List.length_append
      rcases Nat.lt_or_ge s (nfa.length + 1) with hs | hs
      · have hsame := hadds.same s (hlen ▸ hs) (Set.notMem_empty s)
        have hold := ih hps s
        have hstart : (states (nfa ++ [acceptState p.2])).chars s = nfa.states.chars s := chars_append nfa rfl
        rw [← hstart, ← hsame] at hold
        exact hold
      · exact hadds.single s (chars_of_le (hlen ▸ hs))
  exact hfold regexes.zipIdx fun p hp => List.fst_mem_of_mem_zipIdx hp

end AddsRanges

/-- The ranges of some expressions do not overlap: of any two that share a character one is in the other one. -/
def RangesApart (regexes : List Regex) : Prop :=
  ∀ q ∈ regexes.flatMap charRanges, ∀ q' ∈ regexes.flatMap charRanges, ¬ Overlap q q'

lemma nonempty_charRanges {regexes : List Regex} (h : ∀ r ∈ regexes, r.Proper) :
    ∀ q ∈ regexes.flatMap charRanges, q.Nonempty := by
  intro q hq
  obtain ⟨r, hr, hq⟩ := List.mem_flatMap.1 hq
  exact nonempty_of_proper (h r hr) q hq

/-- Where no ranges overlap, those that are used for a set of the NFA's states come one after the other, have just the
characters that lead from one of the states, and are looked up as a whole in each of them. -/
theorem usedCharRanges_makeNFA {regexes : List Regex} (h : ∀ r ∈ regexes, r.Proper) (hapart : RangesApart regexes)
    (ss : Finset ℕ) :
    Sorted ((makeNFA regexes).states.usedCharRanges ss) ∧
      (∀ c, Covers ((makeNFA regexes).states.usedCharRanges ss) c ↔
        ∃ s ∈ ss, (((makeNFA regexes).states.chars s).lookup c).isSome) ∧
      ∀ cr ∈ (makeNFA regexes).states.usedCharRanges ss, ∀ s ∈ ss, ∀ c, cr.Contains c →
        ((makeNFA regexes).states.chars s).lookupRangeSubset cr = ((makeNFA regexes).states.chars s).lookup c := by
  obtain ⟨rows, -, hnfa⟩ := exists_hasRows h
  obtain ⟨hsorted, hcovers⟩ : Sorted ((makeNFA regexes).states.usedCharRanges ss) ∧ _ :=
    NFA.usedCharRanges_spec hnfa.ranged
  have hlookup (s : ℕ) (c : UInt8) :
      ((makeNFA regexes).states.chars s).lookup c = ((makeNFA regexes).states.chars s).valueAt c :=
    RangeMap.lookup_eq_valueAt (NFA.sorted_chars hnfa.ranged s) c
  refine ⟨hsorted, fun c => (hcovers c).trans ?_, fun cr hcr s hs c hc => ?_⟩
  · refine exists_congr fun s => and_congr_right fun _ => ?_
    rw [hlookup]
    exact RangeMap.covers_iff_isSome
  · rw [hlookup]
    exact NFA.refines_of_singleRanges (singleRanges_makeNFA regexes) (nonempty_charRanges h) hapart ss cr hcr s hs c hc

/-- A word, and the word `if`. -/
def wordRows : List Regex := [rstar (rcharRange 97 122), rseq (charLit 105) (charLit 102)]

lemma proper_wordRows : ∀ r ∈ wordRows, r.Proper := List.forall_mem_cons.2
  ⟨(by decide : (97 : UInt8) ≤ 122), List.forall_mem_singleton.2 ⟨UInt8.le_refl 105, UInt8.le_refl 102⟩⟩

lemma rangesApart_wordRows : RangesApart wordRows := by
  have hranges : wordRows.flatMap charRanges = [(97, 122), (105, 105), (102, 102)] := rfl
  intro q hq q' hq'
  rw [hranges] at hq hq'
  simp only [List.mem_cons, List.not_mem_nil, or_false] at hq hq'
  rintro ⟨hlt, hle, hlt'⟩
  rcases hq with rfl | rfl | rfl <;> rcases hq' with rfl | rfl | rfl <;> revert hlt hle hlt' <;> decide

/-- A letter of a word is read by the state of the word's loop, or by the one that begins `if` as well. -/
theorem usedCharRanges_makeNFA_words : Sorted ((makeNFA wordRows).states.usedCharRanges {2, 4}) ∧
    Covers ((makeNFA wordRows).states.usedCharRanges {2, 4}) 105 ∧
    ∀ cr ∈ (makeNFA wordRows).states.usedCharRanges {2, 4}, ∀ c, cr.Contains c →
      ((makeNFA wordRows).states.chars 2).lookupRangeSubset cr = ((makeNFA wordRows).states.chars 2).lookup c := by
  obtain ⟨hsorted, hcovers, hlookup⟩ := usedCharRanges_makeNFA proper_wordRows rangesApart_wordRows {2, 4}
  exact ⟨hsorted, (hcovers 105).2 ⟨2, by decide, by decide⟩, fun cr hcr => hlookup cr hcr 2 (by decide)⟩

end Hobbes.Regex
