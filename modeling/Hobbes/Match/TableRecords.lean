import Hobbes.Match.TableBranches

/-!
# Columns of variants and records
-/

namespace Hobbes.Match.Table

open Core Lang

variable {G E : Type} {guards : G → Bool} {mk : PatternRows G E → Make G E ℕ} {ps : PatternRows G E}
  {xs : List Column} {c : ℕ} {x : Column}

/-! ### Variants -/

lemma varCtor_eq_some {p : Pattern} {lbl : Bytes} (h : varCtor p = some lbl) : ∃ y q, p = .variant y lbl q := by
  cases p <;> cases h
  exact ⟨_, _, rfl⟩

/-- The patterns for what a constructor holds. -/
abbrev variantParts (lbl : Bytes) : Pattern → Option (List Pattern) :=
  branchParts varCtor variantValue (fun _ p => [p]) lbl

def payloadTys (lbl : Bytes) : Ty → List Ty
  | .variant ts => (ts.lookup lbl).toList
  | _ => []

lemma columnTy_variant {t : Ty} {y : Name} {lbl : Bytes} {q : Pattern} (h : ColumnTy ps c t)
    (hp : InColumn ps c (.variant y lbl q)) : ∃ ts t', t = .variant ts ∧ ts.lookup lbl = some t' ∧ q.HasTy t' :=
  Pattern.hasTy_variant.mp (h _ hp)

lemma Value.HasTy.exists_variant {v : Value} {ts : List (Bytes × Ty)} (h : v.HasTy (.variant ts)) :
    ∃ lbl w t, v = .variant lbl w ∧ ts.lookup lbl = some t ∧ w.HasTy t := by
  cases h with
  | variant hlbl hv => exact ⟨_, _, _, rfl, hlbl, hv⟩

lemma takenApart_variant (hsplits : Splits varCtor ps c) {lbl : Bytes}
    (hlbl : ∃ p, InColumn ps c p ∧ varCtor p = some lbl) :
    TakenApart (variantParts lbl) x [⟨.payload x.name, false⟩] (payloadTys lbl) ps c := by
  obtain ⟨p₀, hp₀, hlbl₀⟩ := hlbl
  refine ⟨⟨p₀, hp₀, isSome_branchParts hlbl₀⟩, List.pairwise_singleton _ _, ?_, fun p qs hp hplaced hqs => ?_,
    fun p qs t hp ht hqs => ?_⟩
  · simp only [List.forall_mem_singleton]
    exact .payload .refl
  · rcases branchParts_eq_some hqs with ⟨hctor, rfl⟩ | ⟨hnone, rfl⟩
    · obtain ⟨y, q, rfl⟩ := varCtor_eq_some hctor
      have hnamed := hplaced.named rfl
      rw [Pattern.assignName, Pattern.variant.injEq] at hnamed
      exact .cons (placed_part hnamed.2.2 hplaced.inner) .nil
    · exact .cons (placed_any (isAny_of_splits hsplits hp hnone)) .nil
  · obtain ⟨y₀, q₀, rfl⟩ := varCtor_eq_some hlbl₀
    obtain ⟨ts, t', rfl, hts, -⟩ := columnTy_variant ht hp₀
    rw [payloadTys, hts, Option.toList_some]
    rcases branchParts_eq_some hqs with ⟨hctor, rfl⟩ | ⟨hnone, rfl⟩
    · obtain ⟨y, q, rfl⟩ := varCtor_eq_some hctor
      obtain ⟨ts', t'', heq, hts', hq⟩ := columnTy_variant ht hp
      obtain rfl := Ty.variant.inj heq
      obtain rfl := Option.some.inj (hts.symm.trans hts')
      exact .cons hq .nil
    · have hany := isAny_of_splits hsplits hp hnone
      cases p with
      | any z vn => exact .cons .any .nil
      | _ => cases hany

/-- A constructor is opened as the patterns for it are. -/
lemma opens_variant (hsplits : Splits varCtor ps c) {lbl : Bytes} {v : Value} :
    Opens (variantParts lbl) (payloadTys lbl) ps c (.variant lbl v) [v] := by
  refine ⟨fun t hty ht => ?_, fun p qs hin hqs => ?_, fun p hin hnone => ?_⟩
  · cases hty with
    | variant hlbl hv =>
      rw [payloadTys, hlbl]
      exact .cons hv .nil
  · rcases branchParts_eq_some hqs with ⟨hctor, rfl⟩ | ⟨hnone, rfl⟩
    · obtain ⟨y, q, rfl⟩ := varCtor_eq_some hctor
      exact ⟨rfl, by simp [variantValue, Pattern.acceptsAll, Pattern.accepts]⟩
    · have hany := isAny_of_splits hsplits hin hnone
      exact ⟨rfl, by simp [Pattern.acceptsAll, Pattern.accepts_of_isAny hany]⟩
  · obtain ⟨lbl', hctor, hne⟩ := branchParts_eq_none hnone
    obtain ⟨y, q, rfl⟩ := varCtor_eq_some hctor
    simp [Pattern.accepts, hne]

/-- The value of the column is of the constructor, and what it holds has a name. -/
def IsVariant (x : Name) (c : ℕ) (lbl : Bytes) (env : Env) (vs : List Value) : Prop :=
  ∃ v, vs[c]? = some (.variant lbl v) ∧ env (.payload x) = some v

lemma variantRows_eq (lbl : Bytes) : ps.filterMap (branchRow varCtor
      (fun p r => prependPatterns (copyRowWithoutColumn r c) (variantValue p))
      (fun _ r => prependPatterns (copyRowWithoutColumn r c) r.patterns[c]?.toList) c lbl) =
    ps.filterMap (takeApart (branchParts varCtor variantValue (fun _ p => [p]) lbl) c) :=
  filterMap_branchRow _ _ (fun _ _ => rfl) fun p r hp => by rw [hp, Option.toList_some]

lemma spec_variantRows (hmk : MakesStates guards mk) (hok : TableOk xs ps) (hx : xs[c]? = some x)
    (hsplits : Splits varCtor ps c) {lbl : Bytes} (hlbl : ∃ p, InColumn ps c p ∧ varCtor p = some lbl) :
    Spec (Good guards) (fun _ => True)
      (mk (ps.filterMap (branchRow varCtor
        (fun p r => prependPatterns (copyRowWithoutColumn r c) (variantValue p))
        (fun _ r => prependPatterns (copyRowWithoutColumn r c) r.patterns[c]?.toList) c lbl)))
      (HandledAt guards xs ps (IsVariant x.name c lbl)) := by
  have hparts := takenApart_variant (x := x) hsplits hlbl
  rw [variantRows_eq]
  refine (hmk _ _ (hparts.tableOk hok hx)).imp (fun _ h => h) fun s states h => ?_
  refine h.of_opens hparts hok hx fun env vs _ hq v hv _ => ?_
  obtain ⟨w, hw, henv⟩ := hq
  obtain rfl := Option.some.inj (hv.symm.trans hw)
  exact ⟨[w], opens_variant hsplits, .cons henv .nil⟩

/-- Where there is no case for a constructor, no row matches. -/
lemma firstMatch_eq_none {jmps : List (Bytes × ℕ)} (hjumps : SplitJumps varCtor ps c jmps none) {vs : List Value}
    {lbl : Bytes} {v : Value} (hv : vs[c]? = some (.variant lbl v)) (hlookup : jmps.lookup lbl = none) :
    firstMatch guards ps vs = none := by
  rw [firstMatch, Option.map_eq_none_iff, List.find?_eq_none]
  intro r hr hacc
  obtain ⟨p, hp, -⟩ := hjumps.splits r hr
  have hvalue := hjumps.dflt rfl r hr
  rw [rowValue, hp, Option.bind_some] at hvalue
  obtain ⟨lbl', hctor⟩ := Option.ne_none_iff_exists'.mp hvalue
  obtain ⟨y, q, rfl⟩ := varCtor_eq_some hctor
  rw [PatternRow.accepts, Pattern.acceptsAll_eraseIdx hp hv, Pattern.accepts] at hacc
  simp only [Bool.and_eq_true, decide_eq_true_eq] at hacc
  obtain rfl := hacc.1.1.1
  obtain ⟨s, hs⟩ := exists_lookup (hjumps.mem_iff.mpr ⟨_, ⟨r, hr, hp⟩, hctor⟩)
  rw [hlookup] at hs
  cases hs

lemma spec_makeVSSwitch (hok : TableOk xs ps) (hx : xs[c]? = some x) {y : Name} {lbl₀ : Bytes} {q : Pattern}
    (hp : InColumn ps c (.variant y lbl₀ q)) (jmps : List (Bytes × ℕ)) (d : Option ℕ) :
    Spec (Good guards)
      (fun states => SplitJumps varCtor ps c jmps d ∧
        (∀ j ∈ jmps, HandledAt guards xs ps (IsVariant x.name c j.1) j.2 states) ∧
        ∀ s, d = some s → HandledAt guards xs ps (Missed varCtor ps c) s states)
      (makeVSSwitch x.name jmps d) fun st states => Handles guards states xs ps (fun _ _ => True) st := by
  refine Spec.pure fun states h => ?_
  obtain ⟨hjumps, hnext, hdflt⟩ := h
  intro env vs hin _
  obtain ⟨v, t, hv, henv, hvty, ht⟩ := hin.column hx
  obtain ⟨ts, t', rfl, -⟩ := columnTy_variant ht hp
  obtain ⟨lbl, w, t'', rfl, -⟩ := hvty.exists_variant
  cases hlookup : jmps.lookup lbl with
  | some s =>
    obtain ⟨st, hst, hhandles⟩ := hnext _ (mem_of_lookup hlookup)
    refine .variant henv hlookup hst (hhandles _ vs (hin.of_agree fun z hz => ?_) ⟨w, hv, Function.update_self _ _ _⟩)
    rw [Function.update_of_ne (hok.ne_of_parent hx hz rfl)]
  | none =>
    cases d with
    | some s =>
      obtain ⟨st, hst, hhandles⟩ := hdflt s rfl
      refine .variantDefault henv hlookup hst (hhandles env vs hin fun v' hv' p hp hsome => ?_)
      obtain rfl := Option.some.inj (hv.symm.trans hv')
      obtain ⟨lbl', hctor⟩ := Option.isSome_iff_exists.mp hsome
      obtain ⟨z, q', rfl⟩ := varCtor_eq_some hctor
      have hne : lbl' ≠ lbl := by
        rintro rfl
        obtain ⟨s', hs'⟩ := exists_lookup (hjumps.mem_iff.mpr ⟨_, hp, hctor⟩)
        rw [hlookup] at hs'
        cases hs'
      simp [Pattern.accepts, hne]
    | none =>
      rw [firstMatch_eq_none hjumps hv hlookup]
      exact .noCase henv hlookup

lemma spec_makeVariantState {y : Name} {lbl : Bytes} {q : Pattern} (hmk : MakesStates guards mk) (hok : TableOk xs ps)
    (hx : xs[c]? = some x) (hp : headPattern ps c = some (.variant y lbl q)) :
    Spec (Good guards) (fun _ => True) (makeVariantState mk ps c)
      fun st states => Handles guards states xs ps (fun _ _ => True) st :=
  spec_split hmk hok hx hp rfl (fun hsplits _ hlbl => spec_variantRows hmk hok hx hsplits hlbl)
    (spec_makeVSSwitch hok hx (inColumn_headPattern hp))

/-! ### Records -/

def fieldColumns (x : Name) (fs : List Bytes) : List Column := fs.map fun f => ⟨.field x f, false⟩

def fieldTys : Ty → List Ty
  | .record ts => ts.map Prod.snd
  | _ => []

/-- What a pattern is taken apart into, where there are patterns for `n` fields. -/
def recordParts (n : ℕ) : Pattern → Option (List Pattern)
  | .record _ fs => some (fs.map Prod.snd)
  | .any _ _ => some (arrayAnyMatches n)
  | _ => none

lemma recordRow_eq (n : ℕ) (r : PatternRow G E) : recordRow c n r = takeApart (recordParts n) c r := by
  rw [recordRow, takeApart]
  cases hp : r.patterns[c]? with
  | none => rfl
  | some p => cases p <;> rfl

lemma columnTy_record {t : Ty} {y : Name} {fs : List (Bytes × Pattern)} (h : ColumnTy ps c t)
    (hp : InColumn ps c (.record y fs)) :
    ∃ ts, t = .record ts ∧ fs.map Prod.fst = ts.map Prod.fst ∧ (ts.map Prod.fst).Nodup ∧
      ∀ f ∈ fs.zip ts, f.1.2.HasTy f.2.2 := Pattern.hasTy_record.mp (h _ hp)

lemma Placed.assignName_field {y : Name} {fs : List (Bytes × Pattern)} (h : Placed x (.record y fs)) :
    ∀ f ∈ fs, f.2.assignName (.field x.name f.1) = f.2 := by
  have hnamed := h.named rfl
  rw [Pattern.assignName, Pattern.assignFields_eq, Pattern.record.injEq] at hnamed
  intro f hf
  exact congrArg Prod.snd (List.map_inj_left.mp (hnamed.2.trans (List.map_id fs).symm) f hf)

lemma placed_fields {y : Name} {fs : List (Bytes × Pattern)} (h : Placed x (.record y fs)) :
    List.Forall₂ Placed (fieldColumns x.name (fs.map Prod.fst)) (fs.map Prod.snd) := by
  have hstrings : (Pattern.record y fs).hasString = false := h.inner
  rw [Pattern.hasString, Pattern.fieldsHaveString_eq, List.any_eq_false] at hstrings
  rw [fieldColumns, List.map_map, List.forall₂_map_left_iff, List.forall₂_map_right_iff, List.forall₂_same]
  exact fun f hf => placed_part (h.assignName_field f hf) (by simpa using hstrings f hf)

lemma takenApart_record (hok : TableOk xs ps) (hx : xs[c]? = some x) {y : Name} {fs : List (Bytes × Pattern)}
    (hp : InColumn ps c (.record y fs)) :
    TakenApart (recordParts fs.length) x (fieldColumns x.name (fs.map Prod.fst)) fieldTys ps c := by
  obtain ⟨t₀, ht₀⟩ := hok.columnTy hx
  obtain ⟨ts₀, rfl, hnames₀, hnodup, -⟩ := columnTy_record ht₀ hp
  rw [← hnames₀] at hnodup
  refine ⟨⟨_, hp, rfl⟩, ?_, ?_, fun p qs hp' hplaced hqs => ?_, fun p qs t hp' ht hqs => ?_⟩
  · rw [fieldColumns, List.pairwise_map]
    exact hnodup.imp fun {f g} hfg => apart_of_parent rfl rfl fun h => hfg (Name.field.inj h).2
  · simp only [fieldColumns, List.forall_mem_map]
    exact fun f _ => .field _ .refl
  · cases p with
    | record z gs =>
      obtain rfl := Option.some.inj hqs
      obtain ⟨ts, heq, hnames, -⟩ := columnTy_record ht₀ hp'
      obtain rfl := Ty.record.inj heq
      rw [hnames₀, ← hnames]
      exact placed_fields hplaced
    | any z vn =>
      obtain rfl := Option.some.inj hqs
      have hany : List.Forall₂ Placed (fieldColumns x.name (fs.map Prod.fst))
          (arrayAnyMatches (fieldColumns x.name (fs.map Prod.fst)).length) :=
        placed_arrayAnyMatches (List.forall_mem_map.mpr fun _ _ => rfl)
      simpa [fieldColumns] using hany
    | _ => cases hqs
  · obtain ⟨ts, rfl, hnames, -⟩ := columnTy_record ht hp
    cases p with
    | record z gs =>
      obtain rfl := Option.some.inj hqs
      obtain ⟨ts', heq, hnames', -, hgs⟩ := columnTy_record ht hp'
      obtain rfl := Ty.record.inj heq
      rw [fieldTys, List.forall₂_map_left_iff, List.forall₂_map_right_iff, List.forall₂_iff_zip]
      exact ⟨by simpa using congrArg List.length hnames', fun {g t} h => hgs (g, t) h⟩
    | any z vn =>
      obtain rfl := Option.some.inj hqs
      have hlen : fs.length = (ts.map Prod.snd).length := by simpa using congrArg List.length hnames
      rw [fieldTys, hlen]
      exact typed_arrayAnyMatches _
    | _ => cases hqs

/-- The fields of a record, in the order of a type. -/
lemma exists_fields {vs : List (Bytes × Value)} {ts : List (Bytes × Ty)} (h : (Value.record vs).HasTy (.record ts)) :
    ∃ ws, List.Forall₂ (fun f w => vs.lookup f = some w) (ts.map Prod.fst) ws ∧
      List.Forall₂ Value.HasTy ws (ts.map Prod.snd) := by
  cases h with
  | record hdefined hfs =>
    induction ts with
    | nil => exact ⟨[], .nil, .nil⟩
    | cons t ts ih =>
      obtain ⟨hd, hdefined⟩ := List.forall_mem_cons.mp hdefined
      obtain ⟨hf, hfs⟩ := List.forall_mem_cons.mp hfs
      obtain ⟨w, hw⟩ := Option.isSome_iff_exists.mp hd
      obtain ⟨ws, hws, hty⟩ := ih hdefined hfs
      exact ⟨w :: ws, .cons hw hws, .cons (hf w hw) hty⟩

lemma acceptsFields_eq {fs : List (Bytes × Pattern)} {vs : List (Bytes × Value)} {ws : List Value}
    (h : List.Forall₂ (fun f w => vs.lookup f = some w) (fs.map Prod.fst) ws) :
    Pattern.acceptsFields fs vs = Pattern.acceptsAll (fs.map Prod.snd) ws := by
  induction fs generalizing ws with
  | nil =>
    cases h
    simp [Pattern.acceptsFields, Pattern.acceptsAll]
  | cons f fs ih =>
    obtain ⟨f, p⟩ := f
    obtain ⟨w, ws, hw, hws, rfl⟩ := List.forall₂_cons_left_iff.mp h
    rw [Pattern.acceptsFields, hw, ih hws, List.map_cons, Pattern.acceptsAll]

/-- A record is opened as the patterns for it are. -/
lemma opens_record {y : Name} {fs : List (Bytes × Pattern)} {ts : List (Bytes × Ty)} (ht : ColumnTy ps c (.record ts))
    (hp : InColumn ps c (.record y fs)) {vs : List (Bytes × Value)} {ws : List Value}
    (hws : List.Forall₂ (fun f w => vs.lookup f = some w) (ts.map Prod.fst) ws) :
    Opens (recordParts fs.length) fieldTys ps c (.record vs) ws := by
  obtain ⟨ts', heq, hnames, -⟩ := columnTy_record ht hp
  obtain rfl := Ty.record.inj heq
  refine ⟨fun t hty ht' => ?_, fun p qs hin hqs => ?_, fun p hin hnone => ?_⟩
  · obtain ⟨us, rfl, hnames', -⟩ := columnTy_record ht' hp
    obtain ⟨ws', hws', hwsty⟩ := exists_fields hty
    rw [← hnames', hnames] at hws'
    have hunique : Relator.RightUnique fun (f : Bytes) (w : Value) => vs.lookup f = some w :=
      fun f w w' hw hw' => Option.some.inj (hw.symm.trans hw')
    obtain rfl := List.right_unique_forall₂' hunique hws hws'
    exact hwsty
  · cases p with
    | record z gs =>
      obtain rfl := Option.some.inj hqs
      obtain ⟨ts', heq, hnames', -⟩ := columnTy_record ht hin
      obtain rfl := Ty.record.inj heq
      rw [← hnames'] at hws
      exact ⟨by simpa using hws.length_eq, by rw [Pattern.accepts, acceptsFields_eq hws]⟩
    | any z vn =>
      obtain rfl := Option.some.inj hqs
      have hlen : (arrayAnyMatches fs.length).length = ws.length := by
        rw [arrayAnyMatches, List.length_replicate, ← hws.length_eq, ← hnames, List.length_map]
      refine ⟨hlen, ?_⟩
      rw [Pattern.accepts_of_isAny rfl, Pattern.acceptsAll_of_isAny (fun q hq => isAny_of_mem_arrayAnyMatches hq) hlen]
    | _ => cases hqs
  · have hty := ht p hin
    cases hty <;> cases hnone

/-- The fields of a record are loaded as its columns. -/
lemma exists_loadFields {env : Env} {fs : List (Bytes × Pattern)} {vs : List (Bytes × Value)} {ws : List Value}
    (henv : env x.name = some (.record vs)) (hnames : ∀ f ∈ fs, f.2.name = .field x.name f.1)
    (hnodup : (fs.map Prod.fst).Nodup) (hws : List.Forall₂ (fun f w => vs.lookup f = some w) (fs.map Prod.fst) ws) :
    ∃ env', loadAll guards (fs.map fun f => (f.2.name, .field x.name f.1)) env = some env' ∧
      Bound env' (fieldColumns x.name (fs.map Prod.fst)) ws ∧ ∀ y, Apart x.name y → env' y = env y := by
  have hds : (fs.map fun f => ((f.2.name, .field x.name f.1) : Name × Load G)) =
      fs.map fun f => (.field x.name f.1, .field x.name f.1) :=
    List.map_congr_left fun f hf => by rw [hnames f hf]
  rw [hds]
  let ds : List (Name × Load G) := fs.map fun f => (.field x.name f.1, .field x.name f.1)
  have heval : ∀ f, (Load.field x.name f : Load G).eval guards env = vs.lookup f := by
    intro f
    rw [Load.eval, henv]
  have hnodup' : (ds.map Prod.fst).Nodup := by
    rw [List.map_map]
    refine List.Nodup.map_on (fun f hf g hg h => ?_) (List.Nodup.of_map _ hnodup)
    exact List.inj_on_of_nodup_map hnodup hf hg (Name.field.inj h).2
  have hparts : ∀ d ∈ ds, d.1.parent = some x.name := List.forall_mem_map.mpr fun _ _ => rfl
  have hsource : ∀ d ∈ ds, ∀ y, d.2.source = some y → y ∉ ds.map Prod.fst := by
    refine List.forall_mem_map.mpr fun f _ y hy => ?_
    obtain rfl := Option.some.inj hy
    exact not_mem_of_parent hparts
  have hval : ∀ d ∈ ds, ∃ v, d.2.eval guards env = some v := by
    refine List.forall_mem_map.mpr fun f hf => ?_
    rw [heval]
    obtain ⟨w, -, hw⟩ := exists_of_forall₂ hws.flip (List.mem_map_of_mem hf)
    exact ⟨w, hw⟩
  obtain ⟨env', hload, hdefs, hother⟩ := exists_loadParts env hnodup' hparts hsource hval
  refine ⟨env', hload, ?_, hother⟩
  rw [List.forall_mem_map] at hdefs
  rw [Bound, fieldColumns, List.forall₂_map_left_iff, List.forall₂_iff_zip]
  refine ⟨hws.length_eq, fun {f w} hfw => ?_⟩
  obtain ⟨g, hg, rfl⟩ := List.mem_map.mp (List.of_mem_zip hfw).1
  rw [hdefs g hg, heval, List.forall₂_zip hws hfw]

lemma spec_makeRecordState {y : Name} {fs : List (Bytes × Pattern)} (hmk : MakesStates guards mk)
    (hok : TableOk xs ps) (hx : xs[c]? = some x) (hp : headPattern ps c = some (.record y fs)) :
    Spec (Good guards) (fun _ => True) (makeRecordState mk ps c)
      fun st states => Handles guards states xs ps (fun _ _ => True) st := by
  have hin := inColumn_headPattern hp
  have hplaced := hok.placed_of_inColumn hx hin
  obtain rfl : y = x.name := hplaced.name_eq rfl
  have hparts := takenApart_record hok hx hin
  unfold makeRecordState
  rw [hp]
  simp only
  split
  · exact Spec.throw
  rename_i cdef hcdef
  have hcdef' : cdef = ps.filterMap (takeApart (recordParts fs.length) c) := by
    rw [← filterMap_of_mapM hcdef]
    exact List.filterMap_congr fun r _ => recordRow_eq fs.length r
  rw [hcdef']
  refine (hmk _ _ (hparts.tableOk hok hx)).bind fun next => Spec.pure fun states h => ?_
  refine Handles.load_of_opens h hparts hok hx fun env vs hin' _ v hv henv => ?_
  obtain ⟨v', t, hv', -, hvty, ht⟩ := hin'.column hx
  obtain rfl := Option.some.inj (hv.symm.trans hv')
  obtain ⟨ts, rfl, hnames, hnodup, -⟩ := columnTy_record ht hin
  obtain ⟨vs', rfl⟩ : ∃ vs', v = .record vs' := by
    cases hvty
    exact ⟨_, rfl⟩
  obtain ⟨ws, hws, -⟩ := exists_fields hvty
  have hfields : ∀ f ∈ fs, f.2.name = .field x.name f.1 := by
    intro f hf
    rw [← hplaced.assignName_field f hf, Pattern.name_assignName]
  obtain ⟨env', hload, hbound, hother⟩ :=
    exists_loadFields henv hfields (hnames ▸ hnodup) (hnames ▸ hws)
  exact ⟨env', ws, hload, opens_record ht hin hws, hbound, hother⟩

end Hobbes.Match.Table
