import Hobbes.Core.OrderedMap
import Hobbes.Regex.BitTable
import Hobbes.Regex.RangeMap
import Mathlib.Data.Finset.Card
import Mathlib.Data.Finset.Prod
import Mathlib.Data.List.Forall2

/-!
# States of a DFA that do the same

Two states are found to be equivalent when they accept and mark the same and each range leads them to equivalent
states. What has been found is kept in a table, below its diagonal.
-/

namespace Hobbes.Regex

/-- For each result, the variables that begin or end there. -/
abbrev SrcMarkers := List (ℕ × List String)

structure DFAState where
  chars : RangeMap UInt8 ℕ
  acc : Option ℕ
  begins : SrcMarkers
  ends : SrcMarkers

abbrev DFA := List DFAState

namespace DFA

/-- The ranges of a state are in order, and its transitions go to states. -/
def WellFormed (dfa : DFA) : Prop :=
  ∀ sd ∈ dfa, Sorted sd.chars.ranges ∧ ∀ m ∈ sd.chars, m.2 < dfa.length

instance (dfa : DFA) : Decidable dfa.WellFormed := inferInstanceAs (Decidable (∀ sd ∈ dfa, _ ∧ _))

/-- What is marked on the way from a state through a string, and what the last state accepts. -/
def run (dfa : DFA) : ℕ → List UInt8 → Option (List (SrcMarkers × SrcMarkers) × Option ℕ)
  | s, [] => dfa[s]?.map fun sd => ([(sd.begins, sd.ends)], sd.acc)
  | s, c :: cs =>
    dfa[s]?.bind fun sd => (sd.chars.lookup c).bind fun t =>
      (dfa.run t cs).map fun r => ((sd.begins, sd.ends) :: r.1, r.2)

/-! ### The states found to be equivalent -/

/-- Two states are equivalent if their transitions lead to states that are known to be. -/
def eqIn (dfa : DFA) (eqStates : BitTable) (s0 s1 : ℕ) : Bool :=
  match dfa[s0]?, dfa[s1]? with
  | some d0, some d1 =>
    d0.acc == d1.acc && d0.begins == d1.begins && d0.ends == d1.ends && d0.chars.length == d1.chars.length &&
      (d0.chars.zip d1.chars).all fun m => m.1.1 == m.2.1 && eqStates.get m.1.2 m.2.2
  | _, _ => false

def findEquivStep (dfa : DFA) (st : BitTable × Bool) (p : ℕ × ℕ) : BitTable × Bool :=
  if st.1.get p.1 p.2 then st
  else if dfa.eqIn st.1 p.1 p.2 then (st.1.set p.1 p.2 true, true)
  else st

/-- The pairs of a state and one before it, in the order of the loops. -/
def statePairs (n : ℕ) : List (ℕ × ℕ) :=
  (List.range n).flatMap fun s0 => (List.range s0).map fun s1 => (s0, s1)

/-- Go through the pairs until nothing is found any more. -/
def findEquivLoop (dfa : DFA) : ℕ → BitTable → Option BitTable
  | 0, _ => none
  | fuel + 1, eqStates =>
    let st := (statePairs dfa.length).foldl dfa.findEquivStep (eqStates, false)
    if st.2 then dfa.findEquivLoop fuel st.1 else some st.1

def eqTable (dfa : DFA) : Option BitTable :=
  dfa.findEquivLoop (dfa.length * dfa.length + 1)
    ((List.range dfa.length).foldl (fun t s => t.set s s true) (.make dfa.length dfa.length false))

end DFA

/-- States that are left out, with those that stand for them. -/
abbrev EqStates := Core.OrderedMap ℕ

namespace DFA

/-- Where a state is equivalent to one that is left out, what stands for that one also stands for it. -/
def substitute (eqStates : BitTable) (r : EqStates) (p : ℕ × ℕ) : EqStates :=
  if eqStates.get p.1 p.2 then r.insert p.1 ((r.lookup p.2).getD p.2) else r

def findEquivStates (dfa : DFA) : Option EqStates :=
  dfa.eqTable.map fun eqStates => (statePairs dfa.length).foldl (substitute eqStates) ∅

/-! ### The table -/

variable {dfa : DFA}

/-- The transitions of two states lead to states that are known to be equivalent. -/
structure EqIn (t : BitTable) (d0 d1 : DFAState) : Prop where
  acc : d0.acc = d1.acc
  begins : d0.begins = d1.begins
  ends : d0.ends = d1.ends
  chars : List.Forall₂ (fun m0 m1 => m0.1 = m1.1 ∧ t.get m0.2 m1.2 = true) d0.chars d1.chars

lemma eqIn_iff {t : BitTable} {s0 s1 : ℕ} :
    dfa.eqIn t s0 s1 ↔ ∃ d0 d1, dfa[s0]? = some d0 ∧ dfa[s1]? = some d1 ∧ EqIn t d0 d1 := by
  rw [eqIn]
  cases h0 : dfa[s0]? with
  | none => simp
  | some d0 =>
    cases h1 : dfa[s1]? with
    | none => simp
    | some d1 =>
      simp only [Bool.and_eq_true, beq_iff_eq, List.all_eq_true, Prod.forall, Option.some_inj]
      constructor
      · rintro ⟨⟨⟨⟨hacc, hbegins⟩, hends⟩, hlen⟩, hall⟩
        refine ⟨d0, d1, rfl, rfl, hacc, hbegins, hends, List.forall₂_iff_zip.2 ⟨hlen, fun {m0 m1} hm => ?_⟩⟩
        exact hall m0.1.1 m0.1.2 m0.2 m1.1.1 m1.1.2 m1.2 hm
      · rintro ⟨_, _, rfl, rfl, hacc, hbegins, hends, hchars⟩
        obtain ⟨hlen, hall⟩ := List.forall₂_iff_zip.1 hchars
        exact ⟨⟨⟨⟨hacc, hbegins⟩, hends⟩, hlen⟩, fun _ _ _ _ _ _ hm => hall hm⟩

/-- What is in a table is still in a later one. -/
def Grows (dfa : DFA) (t t' : BitTable) : Prop :=
  ∀ s0 < dfa.length, ∀ s1 < dfa.length, t.get s0 s1 → t'.get s0 s1

lemma EqIn.grows {t t' : BitTable} {d0 d1 : DFAState} (h : EqIn t d0 d1) (hgrows : dfa.Grows t t')
    (h0 : ∀ m ∈ d0.chars, m.2 < dfa.length) (h1 : ∀ m ∈ d1.chars, m.2 < dfa.length) : EqIn t' d0 d1 where
  acc := h.acc
  begins := h.begins
  ends := h.ends
  chars := by
    obtain ⟨hlen, hall⟩ := List.forall₂_iff_zip.1 h.chars
    refine List.forall₂_iff_zip.2 ⟨hlen, fun {m0 m1} hm => ⟨(hall hm).1, ?_⟩⟩
    obtain ⟨hm0, hm1⟩ := List.of_mem_zip hm
    exact hgrows m0.2 (h0 m0 hm0) m1.2 (h1 m1 hm1) (hall hm).2

/-- What is in the table leads to what is in the table. -/
structure TableOk (dfa : DFA) (t : BitTable) : Prop where
  rowc : t.rowc = dfa.length
  colc : t.colc = dfa.length
  diagonal : ∀ s < dfa.length, t.get s s
  eqIn : ∀ s0 < dfa.length, ∀ s1 < dfa.length, t.get s0 s1 → s0 = s1 ∨ dfa.eqIn t s0 s1

lemma get_set {t : BitTable} (hrowc : t.rowc = dfa.length) (hcolc : t.colc = dfa.length) {s0 s1 r c : ℕ}
    (h0 : s0 < dfa.length) (h1 : s1 < dfa.length) (hc : c < dfa.length) :
    (t.set s0 s1 true).get r c = true ↔ r = s0 ∧ c = s1 ∨ t.get r c = true := by
  by_cases h : r = s0 ∧ c = s1
  · obtain ⟨rfl, rfl⟩ := h
    simp [BitTable.get_set_self (hrowc ▸ h0) (hcolc ▸ h1)]
  · rw [BitTable.get_set_of_ne (hcolc ▸ h1) (hcolc ▸ hc) fun hr hcs => h ⟨hr.symm, hcs.symm⟩]
    simp [h]

lemma mem_statePairs {n : ℕ} {p : ℕ × ℕ} : p ∈ statePairs n ↔ p.1 < n ∧ p.2 < p.1 := by
  obtain ⟨s0, s1⟩ := p
  simp [statePairs]

section Loop

/-- The pairs of states that are not in the table. -/
def missing (dfa : DFA) (t : BitTable) : Finset (ℕ × ℕ) :=
  (Finset.range dfa.length ×ˢ Finset.range dfa.length).filter fun p => t.get p.1 p.2 = false

lemma Grows.missing {t t' : BitTable} (h : dfa.Grows t t') : dfa.missing t' ⊆ dfa.missing t := by
  intro p hp
  simp only [DFA.missing, Finset.mem_filter, Finset.mem_product, Finset.mem_range] at hp ⊢
  refine ⟨hp.1, Bool.eq_false_iff.2 fun ht => ?_⟩
  rw [h p.1 hp.1.1 p.2 hp.1.2 ht] at hp
  exact absurd hp.2 Bool.noConfusion

/-- A step of the loop finds something new or changes nothing. -/
structure Found (dfa : DFA) (t : BitTable) (st : BitTable × Bool) : Prop where
  ok : dfa.TableOk st.1
  missing : (dfa.missing st.1).card ≤ (dfa.missing t).card
  flag : st.2 = true → (dfa.missing st.1).card < (dfa.missing t).card

lemma Found.step (hdfa : dfa.WellFormed) {t : BitTable} {st : BitTable × Bool} (h : dfa.Found t st) {p : ℕ × ℕ}
    (hp : p ∈ statePairs dfa.length) : dfa.Found t (dfa.findEquivStep st p) := by
  obtain ⟨h0, h10⟩ := mem_statePairs.1 hp
  have h1 : p.2 < dfa.length := Nat.lt_trans h10 h0
  rw [findEquivStep]
  split_ifs with hget heq
  · exact h
  · have hset {r c : ℕ} (hc : c < dfa.length) := get_set h.ok.rowc h.ok.colc (r := r) h0 h1 hc
    have hgrows : dfa.Grows st.1 (st.1.set p.1 p.2 true) := fun r _ c hc hrc => (hset hc).2 (.inr hrc)
    have hlt : (dfa.missing (st.1.set p.1 p.2 true)).card < (dfa.missing st.1).card := by
      refine Finset.card_lt_card (Finset.ssubset_iff_of_subset hgrows.missing |>.2 ⟨p, ?_, ?_⟩)
      · simp only [DFA.missing, Finset.mem_filter, Finset.mem_product, Finset.mem_range]
        exact ⟨⟨h0, h1⟩, Bool.eq_false_iff.2 hget⟩
      · simp only [DFA.missing, Finset.mem_filter, not_and, Bool.not_eq_false]
        exact fun _ => (hset h1).2 (.inl ⟨rfl, rfl⟩)
    refine ⟨⟨h.ok.rowc, h.ok.colc, fun s hs => (hset hs).2 (.inr (h.ok.diagonal s hs)), ?_⟩, ?_, fun _ => ?_⟩
    · intro r hr c hc hrc
      have hin : r = c ∨ dfa.eqIn st.1 r c := by
        rcases (hset hc).1 hrc with ⟨rfl, rfl⟩ | hrc
        · exact .inr heq
        · exact h.ok.eqIn r hr c hc hrc
      refine hin.imp_right fun hin => ?_
      obtain ⟨d0, d1, hd0, hd1, hd⟩ := eqIn_iff.1 hin
      refine eqIn_iff.2 ⟨d0, d1, hd0, hd1, hd.grows hgrows ?_ ?_⟩
      · exact (hdfa d0 (List.mem_of_getElem? hd0)).2
      · exact (hdfa d1 (List.mem_of_getElem? hd1)).2
    · exact Nat.le_trans (Nat.le_of_lt hlt) h.missing
    · exact Nat.lt_of_lt_of_le hlt h.missing
  · exact h

lemma findEquivLoop_ok (hdfa : dfa.WellFormed) {fuel : ℕ} {t : BitTable} (ht : dfa.TableOk t)
    (hfuel : (dfa.missing t).card < fuel) : ∃ t', dfa.findEquivLoop fuel t = some t' ∧ dfa.TableOk t' := by
  induction fuel generalizing t with
  | zero => omega
  | succ fuel ih =>
    have hfound : dfa.Found t ((statePairs dfa.length).foldl dfa.findEquivStep (t, false)) :=
      List.foldlRecOn _ _ ⟨ht, Nat.le_refl _, nofun⟩ fun _ h _ hp => h.step hdfa hp
    rw [findEquivLoop]
    split_ifs with hflag
    · have hlt := hfound.flag hflag
      exact ih hfound.ok (by omega)
    · exact ⟨_, rfl, hfound.ok⟩

lemma diagonal_ok : dfa.TableOk
    ((List.range dfa.length).foldl (fun t s => t.set s s true) (.make dfa.length dfa.length false)) := by
  have hinv (ss : List ℕ) (hss : ∀ s ∈ ss, s < dfa.length) (t : BitTable) (hrowc : t.rowc = dfa.length)
      (hcolc : t.colc = dfa.length) :
      (ss.foldl (fun t s => t.set s s true) t).rowc = dfa.length ∧
        (ss.foldl (fun t s => t.set s s true) t).colc = dfa.length ∧
        ∀ r, ∀ c < dfa.length, (ss.foldl (fun t s => t.set s s true) t).get r c ↔ r ∈ ss ∧ r = c ∨ t.get r c := by
    induction ss generalizing t with
    | nil => exact ⟨hrowc, hcolc, fun r c _ => by simp⟩
    | cons s ss ih =>
      rw [List.forall_mem_cons] at hss
      obtain ⟨hr, hc, hget⟩ := ih hss.2 (t.set s s true) hrowc hcolc
      refine ⟨hr, hc, fun r c hc => ?_⟩
      rw [List.foldl_cons, hget r c hc, get_set hrowc hcolc hss.1 hss.1 hc, List.mem_cons]
      constructor
      · rintro (⟨hr, rfl⟩ | ⟨rfl, rfl⟩ | hget)
        · exact .inl ⟨.inr hr, rfl⟩
        · exact .inl ⟨.inl rfl, rfl⟩
        · exact .inr hget
      · rintro (⟨rfl | hr, rfl⟩ | hget)
        · exact .inr (.inl ⟨rfl, rfl⟩)
        · exact .inl ⟨hr, rfl⟩
        · exact .inr (.inr hget)
  obtain ⟨hr, hc, hget⟩ := hinv (List.range dfa.length) (fun s hs => List.mem_range.1 hs)
    (.make dfa.length dfa.length false) rfl rfl
  refine ⟨hr, hc, fun s hs => (hget s s hs).2 (.inl ⟨List.mem_range.2 hs, rfl⟩), fun s0 _ s1 h1 h => ?_⟩
  rcases (hget s0 s1 h1).1 h with ⟨-, heq⟩ | hfalse
  · exact .inl heq
  · rw [BitTable.get_make] at hfalse
    exact absurd hfalse Bool.false_ne_true

lemma exists_eqTable (hdfa : dfa.WellFormed) : ∃ t, dfa.eqTable = some t ∧ dfa.TableOk t := by
  refine findEquivLoop_ok hdfa diagonal_ok (Nat.lt_succ_of_le ?_)
  refine Nat.le_trans (Finset.card_filter_le _ _) ?_
  rw [Finset.card_product, Finset.card_range]

end Loop

/-! ### Equivalent states do the same -/

lemma valueAt_rel {R : ℕ → ℕ → Prop} {m0 m1 : RangeMap UInt8 ℕ}
    (h : List.Forall₂ (fun e0 e1 => e0.1 = e1.1 ∧ R e0.2 e1.2) m0 m1) (k : UInt8) :
    Option.Rel R (m0.valueAt k) (m1.valueAt k) := by
  induction h with
  | nil => exact .none
  | @cons e0 e1 m0 m1 he _ ih =>
    obtain ⟨r0, v0⟩ := e0
    obtain ⟨r1, v1⟩ := e1
    obtain ⟨rfl, hv⟩ := he
    rw [RangeMap.valueAt, RangeMap.valueAt]
    split_ifs
    · exact .some hv
    · exact ih

lemma mem_of_valueAt {m : RangeMap UInt8 ℕ} {k : UInt8} {t : ℕ} (h : m.valueAt k = some t) : ∃ r, (r, t) ∈ m := by
  induction m with
  | nil => cases h
  | cons e m ih =>
    obtain ⟨r, v⟩ := e
    rw [RangeMap.valueAt] at h
    split_ifs at h
    · obtain rfl := Option.some.inj h
      exact ⟨r, List.mem_cons_self⟩
    · obtain ⟨r', hr'⟩ := ih h
      exact ⟨r', List.mem_cons_of_mem _ hr'⟩

/-- One step of a run, where the ranges are in order. -/
lemma run_cons (hdfa : dfa.WellFormed) {s : ℕ} {sd : DFAState} (hs : dfa[s]? = some sd) (c : UInt8)
    (cs : List UInt8) : dfa.run s (c :: cs) = (sd.chars.valueAt c).bind fun t =>
      (dfa.run t cs).map fun r => ((sd.begins, sd.ends) :: r.1, r.2) := by
  have hsorted := (hdfa sd (List.mem_of_getElem? hs)).1
  rw [run, hs, Option.bind_some, RangeMap.lookup_eq_valueAt hsorted.sortedFrom]

lemma run_eq_of_get (hdfa : dfa.WellFormed) {t : BitTable} (ht : dfa.TableOk t) {s0 s1 : ℕ}
    (h0 : s0 < dfa.length) (h1 : s1 < dfa.length) (h : t.get s0 s1) (cs : List UInt8) :
    dfa.run s0 cs = dfa.run s1 cs := by
  induction cs generalizing s0 s1 with
  | nil =>
    rcases ht.eqIn s0 h0 s1 h1 h with rfl | heq
    · rfl
    · obtain ⟨d0, d1, hd0, hd1, hacc, hbegins, hends, -⟩ := eqIn_iff.1 heq
      rw [run, run, hd0, hd1, Option.map_some, Option.map_some, hacc, hbegins, hends]
  | cons c cs ih =>
    rcases ht.eqIn s0 h0 s1 h1 h with rfl | heq
    · rfl
    · obtain ⟨d0, d1, hd0, hd1, -, hbegins, hends, hchars⟩ := eqIn_iff.1 heq
      have hrel := valueAt_rel (R := fun t0 t1 => t.get t0 t1 = true) hchars c
      rw [run_cons hdfa hd0, run_cons hdfa hd1, hbegins, hends]
      cases hv0 : d0.chars.valueAt c with
      | none =>
        cases hv1 : d1.chars.valueAt c with
        | none => rfl
        | some t1 => rw [hv0, hv1] at hrel; cases hrel
      | some t0 =>
        cases hv1 : d1.chars.valueAt c with
        | none => rw [hv0, hv1] at hrel; cases hrel
        | some t1 =>
          rw [hv0, hv1] at hrel
          cases hrel with
          | some hget =>
            obtain ⟨r0, hm0⟩ := mem_of_valueAt hv0
            obtain ⟨r1, hm1⟩ := mem_of_valueAt hv1
            have ht0 := (hdfa d0 (List.mem_of_getElem? hd0)).2 _ hm0
            have ht1 := (hdfa d1 (List.mem_of_getElem? hd1)).2 _ hm1
            rw [Option.bind_some, Option.bind_some, ih ht0 ht1 hget]

/-! ### What stands for a state -/

/-- A state that is left out has one before it that is not, and that does the same. -/
def EqsOk (dfa : DFA) (eqs : EqStates) : Prop :=
  ∀ k v, eqs.lookup k = some v → k < dfa.length ∧ v < k ∧ v ∉ eqs ∧ ∀ cs, dfa.run k cs = dfa.run v cs

lemma EqsOk.substitute (hdfa : dfa.WellFormed) {t : BitTable} (ht : dfa.TableOk t) {r : EqStates}
    (h : dfa.EqsOk r) {p : ℕ × ℕ} (hp : p ∈ statePairs dfa.length) (hle : ∀ k ∈ r, k ≤ p.1) :
    dfa.EqsOk (substitute t r p) ∧ ∀ k ∈ substitute t r p, k ≤ p.1 := by
  obtain ⟨h0, h10⟩ := mem_statePairs.1 hp
  have h1 : p.2 < dfa.length := Nat.lt_trans h10 h0
  rw [DFA.substitute]
  split_ifs with hget
  · -- What stands for the second state of the pair also does what the first one does.
    have hv : (r.lookup p.2).getD p.2 < p.1 ∧ (r.lookup p.2).getD p.2 ∉ r ∧
        ∀ cs, dfa.run p.1 cs = dfa.run ((r.lookup p.2).getD p.2) cs := by
      have hrun := run_eq_of_get hdfa ht h0 h1 hget
      cases hr : r.lookup p.2 with
      | none => exact ⟨h10, AList.lookup_eq_none.1 hr, hrun⟩
      | some v =>
        obtain ⟨-, hlt, hnot, hsame⟩ := h p.2 v hr
        exact ⟨Nat.lt_trans hlt h10, hnot, fun cs => (hrun cs).trans (hsame cs)⟩
    have hnot {v : ℕ} (hvp : v < p.1) (hvr : v ∉ r) : v ∉ r.insert p.1 ((r.lookup p.2).getD p.2) := fun hmem =>
      (AList.mem_insert r).1 hmem |>.elim (Nat.ne_of_lt hvp) hvr
    refine ⟨fun k v hk => ?_, fun k hk => ?_⟩
    · by_cases hkp : k = p.1
      · subst hkp
        rw [AList.lookup_insert, Option.some_inj] at hk
        subst hk
        exact ⟨h0, hv.1, hnot hv.1 hv.2.1, hv.2.2⟩
      · rw [AList.lookup_insert_ne hkp] at hk
        obtain ⟨hkn, hvk, hvr, hsame⟩ := h k v hk
        have hkr : k ∈ r := AList.lookup_isSome.1 (by rw [hk]; rfl)
        exact ⟨hkn, hvk, hnot (Nat.lt_of_lt_of_le hvk (hle k hkr)) hvr, hsame⟩
    · rcases (AList.mem_insert r).1 hk with rfl | hk
      · exact Nat.le_refl _
      · exact hle k hk
  · exact ⟨h, hle⟩

lemma pairwise_statePairs (n : ℕ) : (statePairs n).Pairwise fun p q => p.1 ≤ q.1 := by
  refine List.pairwise_flatMap.2 ⟨fun s _ => ?_, List.pairwise_lt_range.imp fun hlt x hx y hy => ?_⟩
  · exact List.pairwise_map.2 (List.pairwise_of_forall fun _ _ => Nat.le_refl s)
  · obtain ⟨_, -, rfl⟩ := List.mem_map.1 hx
    obtain ⟨_, -, rfl⟩ := List.mem_map.1 hy
    exact Nat.le_of_lt hlt

/-- The states that are left out are found. -/
lemma exists_findEquivStates (hdfa : dfa.WellFormed) : ∃ eqs, dfa.findEquivStates = some eqs ∧ dfa.EqsOk eqs := by
  obtain ⟨t, ht, hok⟩ := exists_eqTable hdfa
  have hfold (ps : List (ℕ × ℕ)) (hps : ps.Pairwise fun p q => p.1 ≤ q.1) (hmem : ∀ p ∈ ps, p ∈ statePairs dfa.length)
      (r : EqStates) (hr : dfa.EqsOk r) (hle : ∀ k ∈ r, ∀ p ∈ ps, k ≤ p.1) :
      dfa.EqsOk (ps.foldl (DFA.substitute t) r) := by
    induction ps generalizing r with
    | nil => exact hr
    | cons p ps ih =>
      rw [List.forall_mem_cons] at hmem
      rw [List.pairwise_cons] at hps
      obtain ⟨hok', hle'⟩ := hr.substitute hdfa hok hmem.1 fun k hk => hle k hk p List.mem_cons_self
      exact ih hps.2 hmem.2 _ hok' fun k hk q hq => Nat.le_trans (hle' k hk) (hps.1 q hq)
  refine ⟨(statePairs dfa.length).foldl (DFA.substitute t) ∅, by rw [findEquivStates, ht, Option.map_some], ?_⟩
  refine hfold _ (pairwise_statePairs _) (fun _ hp => hp) ∅ (fun k v hk => ?_) fun k hk => ?_
  · rw [AList.lookup_empty] at hk
    cases hk
  · exact absurd hk (AList.notMem_empty k)

end DFA

end Hobbes.Regex
