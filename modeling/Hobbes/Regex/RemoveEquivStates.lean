import Hobbes.Regex.EquivStates

/-!
# DFAs without equivalent states

The states that are left out go, those behind them are numbered anew, and the transitions are changed in place.
-/

namespace Hobbes.Regex

namespace DFA

/-- New numbers for the states behind each one that is left out, up to the next one. -/
def shiftFrom (n : ℕ) : ℕ → List ℕ → List (ℕ × ℕ)
  | _, [] => []
  | accShift, eq :: eqs =>
    (List.range' (eq + 1) (eqs.headD n - (eq + 1))).map (fun s => (s, s - (accShift + 1))) ++
      shiftFrom n (accShift + 1) eqs

def shifted (n : ℕ) (eqs : EqStates) : List (ℕ × ℕ) := shiftFrom n 0 eqs.sortedKeys

/-- The new number of a state, or of the one that stands for it. -/
def renumber (n : ℕ) (eqs : EqStates) (s : ℕ) : ℕ :=
  let tgt := (eqs.lookup s).getD s
  ((shifted n eqs).lookup tgt).getD tgt

def patch (n : ℕ) (eqs : EqStates) (sd : DFAState) : DFAState :=
  { sd with
    chars := sd.chars.foldl
      (fun chars m =>
        let stgt := renumber n eqs m.2
        if stgt ≠ m.2 then chars.insert m.1 stgt else chars)
      sd.chars }

def removeEquivStates (dfa : DFA) (eqs : EqStates) : DFA :=
  (List.range dfa.length).filterMap fun s =>
    if s ∈ eqs then none else dfa[s]?.map (patch dfa.length eqs)

variable {dfa : DFA} {eqs : EqStates}

/-- The number of states before `s` that stay. -/
def position (eqs : EqStates) (s : ℕ) : ℕ := ((List.range s).filter (· ∉ eqs)).length

/-- The state that stands for `s`, which may be `s`. -/
def representative (eqs : EqStates) (s : ℕ) : ℕ := (eqs.lookup s).getD s

/-! ### New numbers -/

lemma lookup_map_self (f : ℕ → ℕ) (l : List ℕ) (s : ℕ) :
    (l.map fun s => (s, f s)).lookup s = if s ∈ l then some (f s) else none := by
  induction l with
  | nil => rfl
  | cons x l ih =>
    rw [List.map_cons, List.lookup_cons, ih]
    by_cases h : s = x
    · subst h
      simp
    · simp [h, beq_false_of_ne h]

/-- A state is shifted by the number of those before it that are left out. -/
lemma lookup_shiftFrom {n s : ℕ} (hs : s < n) (a : ℕ) {l : List ℕ} (hl : l.Pairwise (· < ·)) (hmem : s ∉ l) :
    (shiftFrom n a l).lookup s =
      if l.countP (· < s) = 0 then none else some (s - (a + l.countP (· < s))) := by
  induction l generalizing a with
  | nil => rfl
  | cons e l ih =>
    rw [List.pairwise_cons] at hl
    rw [List.mem_cons, not_or] at hmem
    rw [shiftFrom, List.lookup_append, lookup_map_self, ih (a + 1) hl.2 hmem.2, List.countP_cons]
    have hzero (hle : ∀ x ∈ l, ¬ x < s) : l.countP (· < s) = 0 := by
      rw [List.countP_eq_zero]
      exact fun x hx => by simpa using hle x hx
    by_cases hes : e < s
    · by_cases hnext : s < l.headD n
      · -- The next one that is left out is behind `s`.
        have hcount : l.countP (· < s) = 0 := by
          refine hzero fun x hx hxs => ?_
          cases l with
          | nil => cases hx
          | cons e' l =>
            change s < e' at hnext
            rcases List.mem_cons.1 hx with rfl | hx
            · omega
            · have := (List.pairwise_cons.1 hl.2).1 x hx
              omega
        have hin : s ∈ List.range' (e + 1) (l.headD n - (e + 1)) := List.mem_range'_1.2 (by omega)
        rw [if_pos hin, hcount, if_pos (decide_eq_true hes), Option.some_or, if_neg (by omega)]
      · have hcount : l.countP (· < s) ≠ 0 := by
          cases l with
          | nil => exact absurd hs hnext
          | cons e' l =>
            change ¬ s < e' at hnext
            have hne : s ≠ e' := fun h => hmem.2 (h ▸ List.mem_cons_self)
            have hlt : e' < s := by omega
            simp [hlt]
        have hout : s ∉ List.range' (e + 1) (l.headD n - (e + 1)) := fun hin => by
          rw [List.mem_range'_1] at hin
          omega
        rw [if_neg hout, Option.none_or, if_neg hcount, if_pos (decide_eq_true hes), if_neg (by omega)]
        congr 1
        omega
    · have hcount : l.countP (· < s) = 0 := hzero fun x hx hxs => by
        have := hl.1 x hx
        omega
      have hout : s ∉ List.range' (e + 1) (l.headD n - (e + 1)) := fun hin => by
        rw [List.mem_range'_1] at hin
        omega
      rw [if_neg hout, hcount, if_pos rfl, if_neg (show ¬ decide (e < s) = true by simpa using hes), if_pos rfl]
      rfl

lemma position_add_countP (eqs : EqStates) (s : ℕ) : position eqs s + eqs.sortedKeys.countP (· < s) = s := by
  have hperm : (eqs.sortedKeys.filter (· < s)).Perm ((List.range s).filter (· ∈ eqs)) := by
    have hnodup : eqs.sortedKeys.Nodup := Core.OrderedMap.pairwise_sortedKeys.imp Nat.ne_of_lt
    refine (List.perm_ext_iff_of_nodup (hnodup.filter _) (List.nodup_range.filter _)).2 fun x => ?_
    simp [Core.OrderedMap.mem_sortedKeys, and_comm]
  rw [List.countP_eq_length_filter, hperm.length_eq, position, ← List.countP_eq_length_filter,
    ← List.countP_eq_length_filter, Nat.add_comm]
  have hsplit := List.length_eq_countP_add_countP (fun x => decide (x ∈ eqs)) (l := List.range s)
  rw [List.length_range] at hsplit
  refine Eq.trans ?_ hsplit.symm
  simp only [decide_not, decide_eq_true_eq]

lemma representative_lt (h : dfa.EqsOk eqs) {s : ℕ} (hs : s < dfa.length) : representative eqs s < dfa.length := by
  rw [representative]
  cases hv : eqs.lookup s with
  | none => exact hs
  | some v => exact Nat.lt_trans (h s v hv).2.1 hs

lemma representative_notMem (h : dfa.EqsOk eqs) (s : ℕ) : representative eqs s ∉ eqs := by
  rw [representative]
  cases hv : eqs.lookup s with
  | none => exact AList.lookup_eq_none.1 hv
  | some v => exact (h s v hv).2.2.1

lemma run_representative (h : dfa.EqsOk eqs) (s : ℕ) (cs : List UInt8) :
    dfa.run (representative eqs s) cs = dfa.run s cs := by
  rw [representative]
  cases hv : eqs.lookup s with
  | none => rfl
  | some v => exact ((h s v hv).2.2.2 cs).symm

lemma renumber_eq (h : dfa.EqsOk eqs) {s : ℕ} (hs : s < dfa.length) :
    renumber dfa.length eqs s = position eqs (representative eqs s) := by
  have hlt := representative_lt h hs
  have hnot := representative_notMem h s
  have hadd := position_add_countP eqs (representative eqs s)
  have hkey : representative eqs s ∉ eqs.sortedKeys := fun hmem => hnot (Core.OrderedMap.mem_sortedKeys.1 hmem)
  change ((shiftFrom dfa.length 0 eqs.sortedKeys).lookup (representative eqs s)).getD (representative eqs s) = _
  rw [lookup_shiftFrom hlt 0 Core.OrderedMap.pairwise_sortedKeys hkey]
  split_ifs with hcount
  · rw [Option.getD_none]
    omega
  · rw [Option.getD_some]
    omega

/-! ### The states that stay -/

lemma position_succ (eqs : EqStates) (s : ℕ) :
    position eqs (s + 1) = position eqs s + if s ∈ eqs then 0 else 1 := by
  rw [position, position, List.range_succ, List.filter_append, List.length_append]
  by_cases hs : s ∈ eqs <;> simp [hs]

lemma position_mono (eqs : EqStates) {s t : ℕ} (hst : s ≤ t) : position eqs s ≤ position eqs t := by
  induction hst with
  | refl => exact Nat.le_refl _
  | step _ ih =>
    rw [position_succ]
    omega

lemma position_lt {s t : ℕ} (hs : s ∉ eqs) (hst : s < t) : position eqs s < position eqs t := by
  have hle := position_mono eqs hst
  rw [Nat.succ_eq_add_one, position_succ, if_neg hs] at hle
  omega

/-- The states that stay among the first `n`. -/
lemma filterMap_range {β : Type} (eqs : EqStates) (g : ℕ → Option β) (n : ℕ) (hg : ∀ s < n, (g s).isSome) :
    ((List.range n).filterMap fun s => if s ∈ eqs then none else g s).length = position eqs n ∧
      ∀ s < n, s ∉ eqs →
        ((List.range n).filterMap fun s => if s ∈ eqs then none else g s)[position eqs s]? = g s := by
  induction n with
  | zero => exact ⟨rfl, fun s hs => absurd hs (Nat.not_lt_zero s)⟩
  | succ n ih =>
    obtain ⟨hlen, hget⟩ := ih fun s hs => hg s (by omega)
    obtain ⟨x, hx⟩ := Option.isSome_iff_exists.1 (hg n (by omega))
    rw [List.range_succ, List.filterMap_append, List.length_append, position_succ, hlen]
    by_cases hn : n ∈ eqs
    · have hlast : [n].filterMap (fun s => if s ∈ eqs then none else g s) = [] := by simp [hn]
      rw [hlast, if_pos hn, List.append_nil]
      refine ⟨rfl, fun s hs hmem => hget s (Nat.lt_of_le_of_ne (Nat.le_of_lt_succ hs) ?_) hmem⟩
      exact fun heq => hmem (heq ▸ hn)
    · have hlast : [n].filterMap (fun s => if s ∈ eqs then none else g s) = [x] := by simp [hn, hx]
      rw [hlast, if_neg hn]
      refine ⟨rfl, fun s hs hmem => ?_⟩
      rcases Nat.lt_succ_iff_lt_or_eq.1 hs with hs | rfl
      · rw [List.getElem?_append_left (by rw [hlen]; exact position_lt hmem hs)]
        exact hget s hs hmem
      · rw [List.getElem?_append_right (Nat.le_of_eq hlen), hlen, Nat.sub_self, hx]
        rfl

/-! ### Their transitions -/

lemma classifyIntersection_self {r : Range UInt8} (hr : r.Nonempty) : classifyIntersection r r = .ee := by
  have hnot : ¬ RangeOrd.lt r.2 r.1 = true := fun h => Nat.not_lt.2 hr (lt_iff_rank.1 h)
  rw [classifyIntersection, if_neg hnot, if_neg hnot, if_pos rfl, if_pos rfl]

/-- At a range of the map, `insert` only changes its value. -/
lemma insert_append {n : ℕ} {pre post : RangeMap UInt8 ℕ} {r : Range UInt8} {v : ℕ}
    (h : SortedFrom n (RangeMap.ranges (pre ++ (r, v) :: post))) (w : ℕ) :
    RangeMap.insert r w (pre ++ (r, v) :: post) = pre ++ (r, w) :: post := by
  induction pre generalizing n with
  | nil => rw [List.nil_append, RangeMap.insert, classifyIntersection_self h.2.1, List.nil_append]
  | cons e pre ih =>
    obtain ⟨lr, u⟩ := e
    have hle : LawfulRangeOrd.rank lr.2 + 1 ≤ LawfulRangeOrd.rank r.1 :=
      h.2.2.le (List.mem_map.2 ⟨(r, v), List.mem_append_right _ List.mem_cons_self, rfl⟩)
    have hbefore : RangeOrd.lt lr.2 r.1 = true := lt_iff_rank.2 (by omega)
    rw [List.cons_append, RangeMap.insert, classifyIntersection, if_pos hbefore]
    exact congrArg _ (ih h.2.2)

lemma patch_eq (n : ℕ) (eqs : EqStates) {sd : DFAState} (hsd : Sorted sd.chars.ranges) :
    patch n eqs sd = { sd with chars := sd.chars.map fun m => (m.1, renumber n eqs m.2) } := by
  have hfold (pre post : RangeMap UInt8 ℕ) (h : Sorted (RangeMap.ranges (pre ++ post))) :
      post.foldl
        (fun chars m =>
          let stgt := renumber n eqs m.2
          if stgt ≠ m.2 then RangeMap.insert m.1 stgt chars else chars) (pre ++ post) =
        pre ++ post.map fun m => (m.1, renumber n eqs m.2) := by
    induction post generalizing pre with
    | nil => rfl
    | cons e post ih =>
      obtain ⟨r, v⟩ := e
      have hstep : (if renumber n eqs v ≠ v then RangeMap.insert r (renumber n eqs v) (pre ++ (r, v) :: post)
          else pre ++ (r, v) :: post) = (pre ++ [(r, renumber n eqs v)]) ++ post := by
        rw [List.append_assoc, List.singleton_append]
        split_ifs with hne
        · exact insert_append h.sortedFrom _
        · rw [not_not.1 hne]
      have hranges : RangeMap.ranges ((pre ++ [(r, renumber n eqs v)]) ++ post) =
          RangeMap.ranges (pre ++ (r, v) :: post) := by
        simp [RangeMap.ranges]
      rw [List.foldl_cons, hstep, ih _ (hranges ▸ h), List.append_assoc]
      rfl
  rw [patch]
  exact congrArg (fun chars => { sd with chars := chars }) (hfold [] sd.chars hsd)

lemma valueAt_map (f : ℕ → ℕ) (m : RangeMap UInt8 ℕ) (k : UInt8) :
    RangeMap.valueAt (m.map fun e => (e.1, f e.2)) k = (m.valueAt k).map f := by
  induction m with
  | nil => rfl
  | cons e m ih =>
    obtain ⟨r, v⟩ := e
    rw [List.map_cons, RangeMap.valueAt, RangeMap.valueAt, ih]
    split_ifs <;> rfl

/-- The number of states that stay, and where they are. -/
lemma removeEquivStates_states (dfa : DFA) (eqs : EqStates) :
    (dfa.removeEquivStates eqs).length = position eqs dfa.length ∧
      ∀ s < dfa.length, s ∉ eqs →
        (dfa.removeEquivStates eqs)[position eqs s]? = dfa[s]?.map (patch dfa.length eqs) :=
  filterMap_range eqs (fun s => dfa[s]?.map (patch dfa.length eqs)) dfa.length fun s hs => by
    rw [List.getElem?_eq_getElem hs]
    rfl

section Removed

variable (hdfa : dfa.WellFormed) (hok : dfa.EqsOk eqs)

include hdfa hok

lemma getElem?_removeEquivStates {s : ℕ} {sd : DFAState} (hs : dfa[s]? = some sd) (hmem : s ∉ eqs) :
    (dfa.removeEquivStates eqs)[position eqs s]? =
      some { sd with chars := sd.chars.map fun m => (m.1, position eqs (representative eqs m.2)) } := by
  obtain ⟨hlt, -⟩ := List.getElem?_eq_some_iff.1 hs
  obtain ⟨hsorted, htargets⟩ := hdfa sd (List.mem_of_getElem? hs)
  rw [(removeEquivStates_states dfa eqs).2 s hlt hmem, hs, Option.map_some, patch_eq _ _ hsorted]
  congr 2
  exact List.map_congr_left fun m hm => by rw [renumber_eq hok (htargets m hm)]

lemma wellFormed_removeEquivStates : (dfa.removeEquivStates eqs).WellFormed := by
  intro sd' hsd'
  obtain ⟨s, hs, hsome⟩ := List.mem_filterMap.1 hsd'
  rw [List.mem_range] at hs
  split_ifs at hsome with hmem
  obtain ⟨hsorted, htargets⟩ := hdfa _ (List.getElem_mem hs)
  rw [List.getElem?_eq_getElem hs, Option.map_some, Option.some_inj, patch_eq _ _ hsorted] at hsome
  subst hsome
  refine ⟨?_, fun m hm => ?_⟩
  · change Sorted (RangeMap.ranges (List.map _ _))
    rwa [RangeMap.ranges, List.map_map]
  · obtain ⟨m₀, hm₀, rfl⟩ := List.mem_map.1 hm
    have ht := htargets m₀ hm₀
    rw [(removeEquivStates_states dfa eqs).1, renumber_eq hok ht]
    exact position_lt (representative_notMem hok _) (representative_lt hok ht)

lemma run_removeEquivStates {s : ℕ} (hs : s < dfa.length) (cs : List UInt8) :
    (dfa.removeEquivStates eqs).run (position eqs (representative eqs s)) cs = dfa.run s cs := by
  induction cs generalizing s with
  | nil =>
    have hsd := List.getElem?_eq_getElem (representative_lt hok hs)
    rw [← run_representative hok s, run, run, hsd,
      getElem?_removeEquivStates hdfa hok hsd (representative_notMem hok s)]
    rfl
  | cons c cs ih =>
    obtain ⟨sd, hsd⟩ : ∃ sd, dfa[representative eqs s]? = some sd :=
      ⟨_, List.getElem?_eq_getElem (representative_lt hok hs)⟩
    have hsd' := getElem?_removeEquivStates hdfa hok hsd (representative_notMem hok s)
    rw [← run_representative hok s, run_cons hdfa hsd, run_cons (wellFormed_removeEquivStates hdfa hok) hsd']
    dsimp only
    rw [valueAt_map fun t => position eqs (representative eqs t)]
    cases hv : sd.chars.valueAt c with
    | none => rfl
    | some t =>
      obtain ⟨r, hr⟩ := mem_of_valueAt hv
      have ht := (hdfa sd (List.mem_of_getElem? hsd)).2 _ hr
      rw [Option.map_some, Option.bind_some, Option.bind_some, ih ht]

end Removed

/-- What `result` is to `dfa`: the states that are not left out, with the same acceptance and marks, at their new
numbers, and their transitions to the new numbers. -/
structure Minimises (dfa result : DFA) (eqs : EqStates) : Prop where
  wellFormed : result.WellFormed
  length : result.length = position eqs dfa.length
  states : ∀ s sd, dfa[s]? = some sd → s ∉ eqs → result[position eqs s]? =
    some { sd with chars := sd.chars.map fun m => (m.1, position eqs (representative eqs m.2)) }
  run : ∀ s < dfa.length, ∀ cs, result.run (position eqs (representative eqs s)) cs = dfa.run s cs
  start : ∀ cs, result.run 0 cs = dfa.run 0 cs

/-- Without the states that are left out a DFA does the same as with them. -/
theorem removeEquivStates_minimises (hdfa : dfa.WellFormed) :
    ∃ eqs, dfa.findEquivStates = some eqs ∧ Minimises dfa (dfa.removeEquivStates eqs) eqs := by
  obtain ⟨eqs, heqs, hok⟩ := exists_findEquivStates hdfa
  have hrun {s : ℕ} (hs : s < dfa.length) := run_removeEquivStates hdfa hok hs
  refine ⟨eqs, heqs, wellFormed_removeEquivStates hdfa hok, (removeEquivStates_states dfa eqs).1,
    fun _ _ hs hmem => getElem?_removeEquivStates hdfa hok hs hmem, fun _ hs => hrun hs, fun cs => ?_⟩
  rcases Nat.eq_zero_or_pos dfa.length with hnil | hpos
  · obtain rfl := List.eq_nil_of_length_eq_zero hnil
    cases cs <;> rfl
  · have hzero : representative eqs 0 = 0 := by
      rw [representative]
      cases hv : eqs.lookup 0 with
      | none => rfl
      | some v => exact absurd (hok 0 v hv).2.1 (Nat.not_lt_zero v)
    have hstart : position eqs 0 = 0 := rfl
    rw [← hrun hpos cs, hzero, hstart]

/-- Two of these states do the same, and the last one has another number without the one between them. -/
def twins : DFA :=
  [⟨[((97, 97), 1), ((98, 98), 2)], none, [], []⟩, ⟨[((99, 99), 3)], some 0, [], []⟩,
    ⟨[((99, 99), 3)], some 0, [], []⟩, ⟨[], some 1, [], []⟩]

theorem twins_minimises : ∃ eqs, twins.findEquivStates = some eqs ∧ Minimises twins (twins.removeEquivStates eqs) eqs :=
  removeEquivStates_minimises (by decide)

example : twins.findEquivStates.map (fun eqs => (eqs.keys, (twins.removeEquivStates eqs).length)) = some ([2], 3) := by
  decide

end DFA

end Hobbes.Regex
