import Hobbes.Match.TableBranches

/-!
# Tables that are the same

The state of a table is taken for another one with the same rows, and for one with columns that nothing depends on.
-/

namespace Hobbes.Match.Table

open Core Lang

variable {G E : Type} {guards : G → Bool} {mk : PatternRows G E → Make G E ℕ} {ps ps' : PatternRows G E}
  {xs xs' : List Column} {c : ℕ} {x : Column}

/-! ### Unused columns -/

section

variable {α β : Type} {R : α → β → Prop} {as : List α} {bs : List β}

lemma filterMap_range {l : List α} {n : ℕ} (h : l.length ≤ n) : (List.range n).filterMap (l[·]?) = l := by
  induction l generalizing n with
  | nil => simp
  | cons a l ih =>
    obtain ⟨n, rfl⟩ := Nat.exists_eq_succ_of_ne_zero (Nat.ne_of_gt (Nat.lt_of_lt_of_le (Nat.succ_pos _) h))
    rw [List.range_succ_eq_map, List.filterMap_cons, List.filterMap_map]
    exact congrArg (List.cons a) (ih (Nat.succ_le_succ_iff.mp h))

lemma forall₂_columns (h : List.Forall₂ R as bs) (cols : List ℕ) :
    List.Forall₂ R (cols.filterMap (as[·]?)) (cols.filterMap (bs[·]?)) := by
  induction cols with
  | nil => exact .nil
  | cons c cols ih =>
    cases ha : as[c]? with
    | none =>
      have hb : bs[c]? = none := by
        rw [List.getElem?_eq_none_iff] at ha ⊢
        rwa [← h.length_eq]
      rwa [List.filterMap_cons_none ha, List.filterMap_cons_none hb]
    | some a =>
      obtain ⟨b, hb, hab⟩ := forall₂_getElem? h ha
      rw [List.filterMap_cons_some ha, List.filterMap_cons_some hb]
      exact .cons hab ih

/-- What is left of two lists holds of the columns that are left. -/
lemma of_forall₂_columns {cols : List ℕ} (hlen : as.length = bs.length)
    (h : List.Forall₂ R (cols.filterMap (as[·]?)) (cols.filterMap (bs[·]?))) {a : α} {b : β} (hc : c ∈ cols)
    (ha : as[c]? = some a) (hb : bs[c]? = some b) : R a b := by
  induction cols with
  | nil => cases hc
  | cons d cols ih =>
    cases hd : as[d]? with
    | none =>
      have hd' : bs[d]? = none := by
        rw [List.getElem?_eq_none_iff] at hd ⊢
        rwa [← hlen]
      rw [List.filterMap_cons_none hd, List.filterMap_cons_none hd'] at h
      rcases List.mem_cons.mp hc with rfl | hc
      · rw [ha] at hd
        cases hd
      · exact ih h hc
    | some a' =>
      obtain ⟨b', hb'⟩ : ∃ b', bs[d]? = some b' := by
        obtain ⟨hlt, -⟩ := List.getElem?_eq_some_iff.mp hd
        exact ⟨_, List.getElem?_eq_getElem (hlen ▸ hlt)⟩
      rw [List.filterMap_cons_some hd, List.filterMap_cons_some hb', List.forall₂_cons] at h
      rcases List.mem_cons.mp hc with rfl | hc
      · obtain rfl := Option.some.inj (hd.symm.trans ha)
        obtain rfl := Option.some.inj (hb'.symm.trans hb)
        exact h.1
      · exact ih h.2 hc

lemma getElem?_columns {l : List α} {cols : List ℕ} (h : ∀ c ∈ cols, c < l.length) (i : ℕ) :
    (cols.filterMap (l[·]?))[i]? = cols[i]?.bind (l[·]?) := by
  induction cols generalizing i with
  | nil => rfl
  | cons c cols ih =>
    obtain ⟨hc, hcols⟩ := List.forall_mem_cons.mp h
    rw [List.filterMap_cons_some (List.getElem?_eq_getElem hc)]
    cases i with
    | zero => simp [hc]
    | succ i =>
      rw [List.getElem?_cons_succ, List.getElem?_cons_succ]
      exact ih hcols i

end

lemma Pattern.acceptsAll_columns {qs : List Pattern} {vs : List Value} {cols : List ℕ} (hlen : qs.length = vs.length)
    (hany : ∀ c p, qs[c]? = some p → c ∉ cols → p.isAny = true) :
    acceptsAll (cols.filterMap (qs[·]?)) (cols.filterMap (vs[·]?)) = acceptsAll qs vs := by
  rw [Bool.eq_iff_iff, acceptsAll_iff, acceptsAll_iff]
  refine ⟨fun h => ?_, fun h => forall₂_columns h cols⟩
  rw [List.forall₂_iff_get]
  refine ⟨hlen, fun i hi hi' => ?_⟩
  have hp := List.getElem?_eq_getElem hi
  by_cases hic : i ∈ cols
  · exact of_forall₂_columns hlen h hic hp (List.getElem?_eq_getElem hi')
  · exact accepts_of_isAny (hany i _ hp hic) _

lemma TableOk.width_eq (h : TableOk xs ps) : width ps = xs.length := by
  obtain ⟨r, tail, rfl⟩ := List.exists_cons_of_ne_nil h.nonempty
  exact (h.placed r List.mem_cons_self).length_eq.symm

lemma TableOk.length_eq (h : TableOk xs ps) {r : PatternRow G E} (hr : r ∈ ps) : r.patterns.length = xs.length :=
  (h.placed r hr).length_eq.symm

lemma mem_usedColumns : c ∈ usedColumns ps ↔ c < width ps ∧ ∃ p, InColumn ps c p ∧ p.isAny = false := by
  rw [usedColumns, List.mem_filter, List.mem_range, List.any_eq_true]
  refine and_congr_right fun _ => ?_
  constructor
  · rintro ⟨r, hr, hp⟩
    cases hcase : r.patterns[c]? with
    | none => simp [hcase] at hp
    | some p => exact ⟨p, ⟨r, hr, hcase⟩, by simpa [hcase] using hp⟩
  · rintro ⟨p, ⟨r, hr, hp⟩, hany⟩
    exact ⟨r, hr, by simp [hp, hany]⟩

/-- The columns that are left. -/
def leftColumns (xs : List Column) (ps : PatternRows G E) : List Column := (usedColumns ps).filterMap (xs[·]?)

lemma leftColumns_sublist (h : TableOk xs ps) : List.Sublist (leftColumns xs ps) xs := by
  have hsub : List.Sublist (usedColumns ps) (List.range xs.length) := by
    rw [← h.width_eq]
    exact List.filter_sublist
  have hall := hsub.filterMap (xs[·]?)
  rwa [filterMap_range le_rfl] at hall

lemma lt_of_mem_usedColumns (h : TableOk xs ps) (hc : c ∈ usedColumns ps) : c < xs.length :=
  h.width_eq ▸ (mem_usedColumns.mp hc).1

/-- A row without the columns that are not used. -/
def leftRow (ps : PatternRows G E) (r : PatternRow G E) : PatternRow G E :=
  { r with patterns := (usedColumns ps).filterMap (r.patterns[·]?) }

lemma tableOk_left (h : TableOk xs ps) : TableOk (leftColumns xs ps) (ps.map (leftRow ps)) := by
  have hsub := leftColumns_sublist h
  obtain ⟨ts, hts⟩ := h.typed
  refine ⟨?_, h.apart.sublist hsub, fun x hx => h.notGuard x (hsub.subset hx), ?_,
    (usedColumns ps).filterMap (ts[·]?), ?_⟩
  · simpa using h.nonempty
  · rw [List.forall_mem_map]
    exact fun r hr => forall₂_columns (h.placed r hr) _
  · rw [List.forall_mem_map]
    exact fun r hr => forall₂_columns (hts r hr) _

lemma allUsed_left (h : TableOk xs ps) : AllUsed (leftColumns xs ps) (ps.map (leftRow ps)) := by
  intro i x hx
  rw [leftColumns, getElem?_columns fun c hc => lt_of_mem_usedColumns h hc] at hx
  obtain ⟨c, hc, -⟩ := Option.bind_eq_some_iff.mp hx
  obtain ⟨-, p, ⟨r, hr, hp⟩, hany⟩ := mem_usedColumns.mp (List.mem_of_getElem? hc)
  refine ⟨p, ⟨leftRow ps r, List.mem_map_of_mem hr, ?_⟩, hany⟩
  rw [leftRow, getElem?_columns fun d hd => by rw [h.length_eq hr]; exact lt_of_mem_usedColumns h hd, hc]
  exact hp

/-- A column that is not used makes no difference to a match. -/
lemma correctAt_of_left (h : TableOk xs ps) {s : ℕ} {states : List (MState G E)}
    (hleft : CorrectAt guards (leftColumns xs ps) (ps.map (leftRow ps)) s states) :
    CorrectAt guards xs ps s states := by
  obtain ⟨st, hst, hhandles⟩ := hleft
  refine ⟨st, hst, fun env vs hin _ => ?_⟩
  obtain ⟨ts, hts, hvs⟩ := hin.typed
  have hmatch : firstMatch guards (ps.map (leftRow ps)) ((usedColumns ps).filterMap (vs[·]?)) =
      firstMatch guards ps vs := by
    refine firstMatch_map fun r hr => ⟨?_, rfl⟩
    have hlen : r.patterns.length = vs.length := by rw [h.length_eq hr, hin.bound.length_eq]
    rw [PatternRow.accepts, PatternRow.accepts, leftRow, Pattern.acceptsAll_columns hlen fun c p hp hc => ?_]
    by_contra hany
    rw [Bool.not_eq_true] at hany
    obtain ⟨hlt, -⟩ := List.getElem?_eq_some_iff.mp hp
    exact hc (mem_usedColumns.mpr ⟨by rwa [h.width_eq, ← h.length_eq hr], p, ⟨r, hr, hp⟩, hany⟩)
  rw [← hmatch]
  refine hhandles env _ ⟨⟨(usedColumns ps).filterMap (ts[·]?), ?_, forall₂_columns hvs _⟩, forall₂_columns hin.bound _⟩
    trivial
  rw [List.forall_mem_map]
  exact fun r hr => forall₂_columns (hts r hr) _

/-- The columns that are left are all used. -/
lemma dropUnusedColumns_ok (h : TableOk xs ps) :
    ∃ xs', TableOk xs' (dropUnusedColumns ps) ∧ AllUsed xs' (dropUnusedColumns ps) ∧
      ∀ s states, CorrectAt guards xs' (dropUnusedColumns ps) s states → CorrectAt guards xs ps s states := by
  rw [dropUnusedColumns]
  split_ifs with hlen
  · refine ⟨xs, h, fun c x hx => ?_, fun _ _ h => h⟩
    have hall : ∀ c ∈ List.range (width ps), (ps.any fun r => !r.patterns[c]?.all Pattern.isAny) = true := by
      rw [← List.filter_eq_self]
      refine List.filter_sublist.eq_of_length ?_
      rw [List.length_range]
      exact hlen
    obtain ⟨hlt, -⟩ := List.getElem?_eq_some_iff.mp hx
    have hmem : c ∈ List.range (width ps) := List.mem_range.mpr (h.width_eq ▸ hlt)
    exact (mem_usedColumns.mp (List.mem_filter.mpr ⟨hmem, hall c hmem⟩)).2
  · exact ⟨leftColumns xs ps, tableOk_left h, allUsed_left h, fun _ _ => correctAt_of_left h⟩

/-! ### Tables with the same rows -/

section

variable [DecidableEq G] [DecidableEq E] {r r' : PatternRow G E}

lemma same_iff : r.same r' = true ↔ r.guard = r'.guard ∧ r.result = r'.result ∧
    r.patterns.map Pattern.forget = r'.patterns.map Pattern.forget := by
  rw [PatternRow.same, Bool.and_eq_true, Bool.and_eq_true, decide_eq_true_iff, decide_eq_true_iff,
    Pattern.sameAll_iff fun p _ q => Pattern.same_iff p q, and_assoc]

lemma sameRows_iff : sameRows ps ps' = true ↔ List.Forall₂ (fun r r' => r.same r' = true) ps ps' := by
  induction ps generalizing ps' with
  | nil => cases ps' <;> simp [sameRows]
  | cons r ps ih => cases ps' <;> simp [sameRows, ih]

lemma accepts_eq_of_same (h : r.same r' = true) (vs : List Value) : r.accepts guards vs = r'.accepts guards vs := by
  obtain ⟨hguard, -, hpatterns⟩ := same_iff.mp h
  have hforget : ∀ ps : List Pattern, Pattern.acceptsAll (ps.map Pattern.forget) vs = Pattern.acceptsAll ps vs :=
    fun ps => Pattern.acceptsAll_forget (fun p _ v => Pattern.accepts_forget p v) vs
  rw [PatternRow.accepts, PatternRow.accepts, hguard, ← hforget, hpatterns, hforget]

lemma firstMatch_eq_of_same (h : sameRows ps ps' = true) (vs : List Value) :
    firstMatch guards ps vs = firstMatch guards ps' vs := by
  rw [sameRows_iff] at h
  induction h with
  | nil => rfl
  | @cons r r' ps ps' hr _ ih =>
    simp only [firstMatch, List.find?_cons, accepts_eq_of_same hr] at ih ⊢
    cases r'.accepts guards vs with
    | true => exact congrArg some (same_iff.mp hr).2.1
    | false => exact ih

lemma hasTy_iff_of_same (h : r.same r' = true) {ts : List Ty} :
    List.Forall₂ Pattern.HasTy r.patterns ts ↔ List.Forall₂ Pattern.HasTy r'.patterns ts := by
  have hforget : ∀ ps : List Pattern, List.Forall₂ Pattern.HasTy (ps.map Pattern.forget) ts ↔
      List.Forall₂ Pattern.HasTy ps ts := by
    intro ps
    simp only [List.forall₂_map_left_iff, Pattern.hasTy_forget]
  rw [← hforget, (same_iff.mp h).2.2, hforget]

end

/-- The columns have the names of their first patterns that are no wildcards. -/
lemma nameOfColumn_eq (h : TableOk xs ps) (hused : AllUsed xs ps) (hx : xs[c]? = some x) :
    nameOfColumn ps c = some x.name := by
  obtain ⟨p, hp, hany⟩ := hused c x hx
  have hname : ∀ r ∈ ps, ∀ y, (r.patterns[c]?.filter fun p => !p.isAny).map Pattern.name = some y → y = x.name := by
    intro r hr y hy
    obtain ⟨q, hq, rfl⟩ := Option.map_eq_some_iff.mp hy
    obtain ⟨hq, hqany⟩ := Option.filter_eq_some_iff.mp hq
    exact (h.placed_of_inColumn hx ⟨r, hr, hq⟩).name_eq (by simpa using hqany)
  rw [nameOfColumn]
  obtain ⟨r, hr, hp⟩ := hp
  cases hcase : ps.findSome? fun r => (r.patterns[c]?.filter fun p => !p.isAny).map Pattern.name with
  | none =>
    have := List.findSome?_eq_none_iff.mp hcase r hr
    simp [hp, hany] at this
  | some y =>
    obtain ⟨r', hr', hy⟩ := List.exists_of_findSome?_eq_some hcase
    rw [hname r' hr' y hy]

lemma spec_remember (h : TableOk xs ps) (hused : AllUsed xs ps) (s : ℕ) :
    Spec (Good guards) (CorrectAt guards xs ps s) (remember ps s) fun _ => CorrectAt guards xs ps s := by
  intro dfa u dfa' heq
  cases heq
  refine ⟨⟨List.prefix_rfl, fun x hx => hx⟩, fun hg _ hcorrect => ⟨?_, hcorrect⟩⟩
  exact List.forall_mem_cons.mpr ⟨⟨xs, h, hused, hcorrect⟩, hg⟩

variable [DecidableEq G] [DecidableEq E]

lemma TableOk.length_eq_of_same (h : TableOk xs ps) (h' : TableOk xs' ps') (hsame : sameRows ps' ps = true) :
    xs'.length = xs.length := by
  obtain ⟨r, hr⟩ := List.exists_mem_of_ne_nil ps h.nonempty
  obtain ⟨r', hr', hrr'⟩ := exists_of_forall₂ (sameRows_iff.mp hsame) hr
  have hlen := congrArg List.length (same_iff.mp hrr').2.2
  rwa [List.length_map, List.length_map, h.length_eq hr, h'.length_eq hr'] at hlen

/-- A state for a table is one for a table with the same rows and the same names. -/
lemma correctAt_of_same (h : TableOk xs ps) (hused : AllUsed xs ps) (h' : TableOk xs' ps') (hused' : AllUsed xs' ps')
    (hsame : sameRows ps' ps = true) (hnames : ∀ c, nameOfColumn ps c = nameOfColumn ps' c) {s : ℕ}
    {states : List (MState G E)} (hcorrect : CorrectAt guards xs' ps' s states) : CorrectAt guards xs ps s states := by
  obtain ⟨st, hst, hhandles⟩ := hcorrect
  refine ⟨st, hst, fun env vs hin _ => ?_⟩
  rw [← firstMatch_eq_of_same hsame]
  refine hhandles env vs ⟨?_, ?_⟩ trivial
  · obtain ⟨ts, hts, hvs⟩ := hin.typed
    refine ⟨ts, fun r' hr' => ?_, hvs⟩
    obtain ⟨r, hr, hrr'⟩ := exists_of_forall₂ (sameRows_iff.mp hsame).flip hr'
    exact (hasTy_iff_of_same hrr').mpr (hts r hr)
  · have hlen := h.length_eq_of_same h' hsame
    rw [Bound, List.forall₂_iff_get]
    refine ⟨hlen.trans hin.bound.length_eq, fun i hi hi' => ?_⟩
    have hx := List.getElem?_eq_getElem (hlen ▸ hi : i < xs.length)
    have hname := hnames i
    rw [nameOfColumn_eq h hused hx, nameOfColumn_eq h' hused' (List.getElem?_eq_getElem hi), Option.some.injEq] at hname
    obtain ⟨v, hv, henv⟩ := forall₂_getElem? hin.bound hx
    rw [List.getElem?_eq_getElem hi', Option.some.injEq] at hv
    rw [List.get_eq_getElem, List.get_eq_getElem, ← hname, henv, hv]

/-- A state that is found is one for the table. -/
lemma spec_findTable (h : TableOk xs ps) (hused : AllUsed xs ps) :
    Spec (Good guards) (fun _ => True) (findTable ps) fun o states =>
      ∀ s, o = some s → CorrectAt guards xs ps s states := by
  intro dfa o dfa' heq
  rw [findTable] at heq
  split at heq
  · rename_i e he
    cases heq
    have hext : Extends dfa { dfa with found := (ps, e.1) :: dfa.found } :=
      ⟨List.prefix_rfl, fun x hx => List.mem_cons_of_mem (ps, e.1) hx⟩
    refine ⟨hext, fun hg hclean _ => ⟨hg.mono rfl List.prefix_rfl, ?_⟩⟩
    rintro s ⟨rfl⟩
    obtain ⟨xs', h', hused', hcorrect⟩ := hg e (List.mem_of_find?_eq_some he)
    have hsame : sameRows e.1 ps = true := by simpa using List.find?_some he
    exact correctAt_of_same h hused h' hused' hsame (hclean (ps, e.1) List.mem_cons_self) hcorrect
  · cases heq
    refine ⟨.refl dfa, fun hg _ _ => ⟨hg, fun s hs => ?_⟩⟩
    cases hs

end Hobbes.Match.Table
