import Hobbes.Match.TableColumns
import Hobbes.Match.TableRuns

/-!
# Splitting tables

What is left of a table for a value of a column has the first match of the table.
-/

namespace Hobbes.Match.Table

open Core Lang

variable {G E : Type} {guards : G → Bool}

/-! ### Rows -/

namespace Pattern

lemma acceptsAll_iff {ps : List Pattern} {vs : List Value} :
    acceptsAll ps vs = true ↔ List.Forall₂ (fun p v => p.accepts v = true) ps vs := by
  induction ps generalizing vs with
  | nil => cases vs <;> simp [acceptsAll]
  | cons p ps ih => cases vs <;> simp [acceptsAll, ih]

lemma acceptsAll_append {ps ps' : List Pattern} {vs vs' : List Value} (h : ps.length = vs.length) :
    acceptsAll (ps ++ ps') (vs ++ vs') = (acceptsAll ps vs && acceptsAll ps' vs') := by
  induction ps generalizing vs with
  | nil =>
    obtain rfl := List.length_eq_zero_iff.mp h.symm
    simp [acceptsAll]
  | cons p ps ih =>
    cases vs with
    | nil => cases h
    | cons v vs =>
      rw [List.cons_append, List.cons_append, acceptsAll, acceptsAll, ih (Nat.succ.inj h), Bool.and_assoc]

/-- A row of patterns is one pattern and the others. -/
lemma acceptsAll_eraseIdx {ps : List Pattern} {vs : List Value} {c : ℕ} {p : Pattern} {v : Value}
    (hp : ps[c]? = some p) (hv : vs[c]? = some v) :
    acceptsAll ps vs = (p.accepts v && acceptsAll (ps.eraseIdx c) (vs.eraseIdx c)) := by
  induction c generalizing ps vs with
  | zero =>
    cases ps with
    | nil => cases hp
    | cons q ps =>
      cases vs with
      | nil => cases hv
      | cons w vs =>
        obtain rfl := Option.some.inj hp
        obtain rfl := Option.some.inj hv
        rfl
  | succ c ih =>
    cases ps with
    | nil => cases hp
    | cons q ps =>
      cases vs with
      | nil => cases hv
      | cons w vs =>
        rw [List.getElem?_cons_succ] at hp hv
        rw [acceptsAll, ih hp hv, List.eraseIdx_cons_succ, List.eraseIdx_cons_succ, acceptsAll, Bool.and_left_comm]

lemma accepts_of_isAny {p : Pattern} (h : p.isAny = true) (v : Value) : p.accepts v = true := by
  cases p with
  | any x vn => simp [accepts]
  | _ => cases h

lemma acceptsAll_of_isAny {ps : List Pattern} {vs : List Value} (h : ∀ p ∈ ps, p.isAny = true)
    (hlen : ps.length = vs.length) : acceptsAll ps vs = true := by
  rw [acceptsAll_iff, List.forall₂_iff_zip]
  exact ⟨hlen, fun hp => accepts_of_isAny (h _ (List.of_mem_zip hp).1) _⟩

end Pattern

lemma firstMatch_cons_of_accepts {r : PatternRow G E} {ps : PatternRows G E} {vs : List Value}
    (h : r.accepts guards vs = true) : firstMatch guards (r :: ps) vs = some r.result := by
  simp [firstMatch, h]

lemma firstMatch_cons_of_not_accepts {r : PatternRow G E} {ps : PatternRows G E} {vs : List Value}
    (h : r.accepts guards vs = false) : firstMatch guards (r :: ps) vs = firstMatch guards ps vs := by
  simp [firstMatch, h]

/-- The rows that are left have the first match where each is as good as the row it comes from, and no other row
matches. -/
lemma firstMatch_filterMap {ps : PatternRows G E} {f : PatternRow G E → Option (PatternRow G E)} {vs vs' : List Value}
    (hsome : ∀ r ∈ ps, ∀ r', f r = some r' → r'.accepts guards vs' = r.accepts guards vs ∧ r'.result = r.result)
    (hnone : ∀ r ∈ ps, f r = none → r.accepts guards vs = false) :
    firstMatch guards (ps.filterMap f) vs' = firstMatch guards ps vs := by
  induction ps with
  | nil => rfl
  | cons r ps ih =>
    obtain ⟨hr, hps⟩ := List.forall_mem_cons.mp hsome
    obtain ⟨hr', hps'⟩ := List.forall_mem_cons.mp hnone
    have ih := ih hps hps'
    cases hf : f r with
    | none => rw [List.filterMap_cons_none hf, ih, firstMatch_cons_of_not_accepts (hr' hf)]
    | some r' =>
      obtain ⟨hacc, hres⟩ := hr r' hf
      rw [List.filterMap_cons_some hf]
      cases hcase : r.accepts guards vs with
      | true => rw [firstMatch_cons_of_accepts (hacc.trans hcase), firstMatch_cons_of_accepts hcase, hres]
      | false => rw [firstMatch_cons_of_not_accepts (hacc.trans hcase), firstMatch_cons_of_not_accepts hcase, ih]

lemma firstMatch_map {ps : PatternRows G E} {f : PatternRow G E → PatternRow G E} {vs vs' : List Value}
    (h : ∀ r ∈ ps, (f r).accepts guards vs' = r.accepts guards vs ∧ (f r).result = r.result) :
    firstMatch guards (ps.map f) vs' = firstMatch guards ps vs := by
  rw [← List.filterMap_eq_map]
  refine firstMatch_filterMap (fun r hr r' hf => ?_) fun r _ hf => by cases hf
  obtain rfl := Option.some.inj hf
  exact h r hr

/-! ### Branches -/

section

variable {S : Type} [DecidableEq S] {svalue : Pattern → Option S}
  {matchRow : Pattern → PatternRow G E → PatternRow G E} {anyRow : S → PatternRow G E → PatternRow G E} {c : ℕ}
  {ps : PatternRows G E} {acc acc' : List (S × PatternRows G E) × PatternRows G E} {r : PatternRow G E}

/-- What the branch of `sv` has of a row. -/
def branchRow (svalue : Pattern → Option S) (matchRow : Pattern → PatternRow G E → PatternRow G E)
    (anyRow : S → PatternRow G E → PatternRow G E) (c : ℕ) (sv : S) (r : PatternRow G E) : Option (PatternRow G E) :=
  r.patterns[c]?.bind fun p =>
    match svalue p with
    | some sv' => if sv' = sv then some (matchRow p r) else none
    | none => some (anyRow sv r)

/-- The value that a row has in a column. -/
def rowValue (svalue : Pattern → Option S) (c : ℕ) (r : PatternRow G E) : Option S := r.patterns[c]?.bind svalue

/-- The branches of a table, and its rows that match anything. -/
structure SplitInto (svalue : Pattern → Option S) (matchRow : Pattern → PatternRow G E → PatternRow G E)
    (anyRow : S → PatternRow G E → PatternRow G E) (c : ℕ) (ps : PatternRows G E)
    (acc : List (S × PatternRows G E) × PatternRows G E) : Prop where
  nodup : (acc.1.map Prod.fst).Nodup
  branch : ∀ b ∈ acc.1, b.2 = ps.filterMap (branchRow svalue matchRow anyRow c b.1)
  keys : ∀ sv, sv ∈ acc.1.map Prod.fst ↔ ∃ r ∈ ps, rowValue svalue c r = some sv
  anys : acc.2 = ps.filter fun r => (rowValue svalue c r).isNone
  total : ∀ r ∈ ps, ∃ p, r.patterns[c]? = some p ∧ (svalue p = none → p.isAny = true)

lemma map_addToBranch (sv : S) (f : PatternRows G E → PatternRows G E) (bs : List (S × PatternRows G E)) :
    (addToBranch sv f bs).map Prod.fst = if sv ∈ bs.map Prod.fst then bs.map Prod.fst else bs.map Prod.fst ++ [sv] := by
  induction bs with
  | nil => simp [addToBranch]
  | cons b bs ih =>
    rw [addToBranch]
    by_cases hb : b.1 = sv
    · simp [hb]
    · have hne : sv ≠ b.1 := fun h => hb h.symm
      simp only [if_neg hb, List.map_cons, ih, List.mem_cons, hne, false_or]
      split_ifs <;> simp

lemma mem_addToBranch {sv : S} {f : PatternRows G E → PatternRows G E} {bs : List (S × PatternRows G E)}
    (hnodup : (bs.map Prod.fst).Nodup) {b : S × PatternRows G E} (h : b ∈ addToBranch sv f bs) :
    (b ∈ bs ∧ b.1 ≠ sv) ∨ b.1 = sv ∧ ((sv ∉ bs.map Prod.fst ∧ b.2 = f []) ∨ ∃ rs, (sv, rs) ∈ bs ∧ b.2 = f rs) := by
  induction bs with
  | nil =>
    obtain rfl := List.mem_singleton.mp h
    exact .inr ⟨rfl, .inl ⟨List.not_mem_nil, rfl⟩⟩
  | cons a bs ih =>
    rw [List.map_cons, List.nodup_cons] at hnodup
    rw [addToBranch] at h
    split_ifs at h with ha
    · rcases List.mem_cons.mp h with rfl | h
      · refine .inr ⟨ha, .inr ⟨a.2, ?_, rfl⟩⟩
        rw [← ha]
        exact List.mem_cons_self
      · refine .inl ⟨List.mem_cons_of_mem a h, fun hb => hnodup.1 ?_⟩
        rw [ha, ← hb]
        exact List.mem_map_of_mem h
    · rcases List.mem_cons.mp h with rfl | h
      · exact .inl ⟨List.mem_cons_self, ha⟩
      · rcases ih hnodup.2 h with ⟨hb, hne⟩ | ⟨hb, ⟨hnew, heq⟩ | ⟨rs, hrs, heq⟩⟩
        · exact .inl ⟨List.mem_cons_of_mem a hb, hne⟩
        · refine .inr ⟨hb, .inl ⟨?_, heq⟩⟩
          rw [List.map_cons, List.mem_cons]
          rintro (rfl | hmem)
          exacts [ha rfl, hnew hmem]
        · exact .inr ⟨hb, .inr ⟨rs, List.mem_cons_of_mem a hrs, heq⟩⟩

lemma splitInto_nil : SplitInto svalue matchRow anyRow c [] ([], []) where
  nodup := List.nodup_nil
  branch := List.forall_mem_nil _
  keys := by simp
  anys := rfl
  total := List.forall_mem_nil _

lemma SplitInto.step (h : SplitInto svalue matchRow anyRow c ps acc)
    (hstep : splitRow svalue matchRow anyRow c acc r = some acc') :
    SplitInto svalue matchRow anyRow c (ps ++ [r]) acc' := by
  rw [splitRow, Option.bind_eq_bind, Option.bind_eq_some_iff] at hstep
  obtain ⟨p, hp, hstep⟩ := hstep
  have hvalue : rowValue svalue c r = svalue p := by rw [rowValue, hp, Option.bind_some]
  split at hstep
  · rename_i sv hsv
    obtain rfl := Option.some.inj hstep
    rw [hsv] at hvalue
    have hbranch : ∀ sv', branchRow svalue matchRow anyRow c sv' r =
        if sv = sv' then some (matchRow p r) else none := by
      intro sv'
      simp [branchRow, hp, hsv]
    refine ⟨?_, fun b hb => ?_, fun sv' => ?_, ?_, ?_⟩
    · rw [map_addToBranch]
      split_ifs with hmem
      · exact h.nodup
      · exact List.nodup_append.mpr ⟨h.nodup, List.nodup_singleton sv, by
          rintro a ha b hb rfl
          exact hmem (List.mem_singleton.mp hb ▸ ha)⟩
    · rw [List.filterMap_append]
      rcases mem_addToBranch h.nodup hb with ⟨hb, hne⟩ | ⟨hb, ⟨hnew, heq⟩ | ⟨rs, hrs, heq⟩⟩
      · rw [h.branch b hb]
        simp [hbranch, Ne.symm hne]
      · -- the rows that match anything are those of the branch so far
        have hsofar : ps.filterMap (branchRow svalue matchRow anyRow c sv) = acc.2.map (anyRow sv) := by
          rw [h.anys, ← List.filterMap_eq_map, List.filterMap_filter]
          refine List.filterMap_congr fun r' hr' => ?_
          obtain ⟨p', hp', -⟩ := h.total r' hr'
          have hne : rowValue svalue c r' ≠ some sv := fun hv => hnew ((h.keys sv).mpr ⟨r', hr', hv⟩)
          simp only [branchRow, rowValue, hp', Option.bind_some] at hne ⊢
          cases hcase : svalue p' with
          | none => simp
          | some sv' =>
            have hsv' : sv' ≠ sv := fun heq => hne (by rw [hcase, heq])
            simp [hsv']
        rw [heq, hb, hsofar]
        simp [hbranch]
      · have hrows : rs = ps.filterMap (branchRow svalue matchRow anyRow c sv) := h.branch _ hrs
        have hne : rs ≠ [] := by
          obtain ⟨r', hr', hv⟩ := (h.keys sv).mp (List.mem_map_of_mem hrs)
          obtain ⟨p', hp', -⟩ := h.total r' hr'
          rw [hrows]
          intro hnil
          have := List.filterMap_eq_nil_iff.mp hnil r' hr'
          rw [rowValue, hp', Option.bind_some] at hv
          simp [branchRow, hp', hv] at this
        have hempty : rs.isEmpty = false := by simpa using hne
        rw [heq, hb]
        simp [hbranch, hempty, ← hrows]
    · rw [map_addToBranch]
      have hkeys := h.keys sv'
      by_cases hsv' : sv' = sv
      · subst hsv'
        refine iff_of_true ?_ ⟨r, List.mem_append_right _ (List.mem_singleton_self r), hvalue⟩
        split_ifs with hmem
        · exact hmem
        · exact List.mem_append_right _ (List.mem_singleton_self _)
      · have hr : rowValue svalue c r ≠ some sv' := by
          rw [hvalue]
          exact fun heq => hsv' (Option.some.inj heq).symm
        have hiff : (∃ r' ∈ ps ++ [r], rowValue svalue c r' = some sv') ↔
            ∃ r' ∈ ps, rowValue svalue c r' = some sv' := by
          simp [or_and_right, exists_or, hr]
        rw [hiff, ← hkeys]
        split_ifs
        · rfl
        · simp [hsv']
    · rw [h.anys, List.filter_append]
      simp [hvalue]
    · rw [List.forall_mem_append, List.forall_mem_singleton]
      refine ⟨h.total, p, hp, fun hnone => ?_⟩
      rw [hsv] at hnone
      cases hnone
  · rename_i hsv
    split_ifs at hstep with hany
    obtain rfl := Option.some.inj hstep
    rw [hsv] at hvalue
    have hbranch : ∀ sv', branchRow svalue matchRow anyRow c sv' r = some (anyRow sv' r) := by
      intro sv'
      simp [branchRow, hp, hsv]
    refine ⟨?_, ?_, fun sv' => ?_, ?_, ?_⟩
    · rw [List.map_map]
      exact h.nodup
    · rw [List.forall_mem_map]
      intro b hb
      rw [List.filterMap_append, ← h.branch b hb]
      simp [hbranch]
    · have hiff : (∃ r' ∈ ps ++ [r], rowValue svalue c r' = some sv') ↔
          ∃ r' ∈ ps, rowValue svalue c r' = some sv' := by
        simp [or_and_right, exists_or, hvalue]
      rw [hiff, ← h.keys sv', List.map_map]
      rfl
    · rw [h.anys, List.filter_append]
      simp [hvalue]
    · rw [List.forall_mem_append, List.forall_mem_singleton]
      exact ⟨h.total, p, hp, fun _ => hany⟩

lemma splitInto_of_foldlM (h : ps.foldlM (splitRow svalue matchRow anyRow c) ([], []) = some acc) :
    SplitInto svalue matchRow anyRow c ps acc := by
  have hall : ∀ (rest done : PatternRows G E) (acc₀ : List (S × PatternRows G E) × PatternRows G E),
      SplitInto svalue matchRow anyRow c done acc₀ →
        rest.foldlM (splitRow svalue matchRow anyRow c) acc₀ = some acc →
          SplitInto svalue matchRow anyRow c (done ++ rest) acc := by
    intro rest
    induction rest with
    | nil =>
      intro done acc₀ h₀ heq
      obtain rfl := Option.some.inj heq
      rwa [List.append_nil]
    | cons r rest ih =>
      intro done acc₀ h₀ heq
      rw [List.foldlM_cons, Option.bind_eq_bind, Option.bind_eq_some_iff] at heq
      obtain ⟨acc₁, hstep, heq⟩ := heq
      have := ih (done ++ [r]) acc₁ (h₀.step hstep) heq
      rwa [List.append_assoc] at this
  exact hall ps [] ([], []) splitInto_nil h

end

end Hobbes.Match.Table
