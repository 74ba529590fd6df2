import Hobbes.Match.TableEnds

/-!
# How making the states of a table can fail

Where the patterns have types, there are only rows that do not cover all values.
-/

namespace Hobbes.Match.Table

open Core Lang

variable {G E : Type}

/-! ### Computations that fail only so -/

section

variable {α β : Type} {b : ℕ}

/-- The rows do not cover all values, or there was too little fuel to say. -/
def Failure.Allowed (f : Failure) : Prop := f = .inexhaustive ∨ f = .inexhaustiveAfterGuard ∨ f = .outOfFuel

/-- The states of tables are there. -/
def Indexed (dfa : MDFA G E) : Prop := ∀ e ∈ dfa.tableCfgStates, e.2 < dfa.states.length

/-- With `b` states or more, the computation only has failures that are allowed, and else a result with `Q` for the
number of states. -/
def Safe (b : ℕ) (m : Make G E α) (Q : α → ℕ → Prop) : Prop :=
  ∀ dfa, Indexed dfa → b ≤ dfa.states.length →
    (∃ f, m dfa = .error f ∧ f.Allowed) ∨
      ∃ a dfa', m dfa = .ok (a, dfa') ∧ Indexed dfa' ∧ dfa.states.length ≤ dfa'.states.length ∧ Q a dfa'.states.length

variable {Q Q' : α → ℕ → Prop} {R : β → ℕ → Prop}

lemma Safe.throw {f : Failure} (hf : f.Allowed) : Safe b (throw f : Make G E α) Q :=
  fun _ _ _ => .inl ⟨f, rfl, hf⟩

lemma Safe.pure {a : α} (h : ∀ l, b ≤ l → Q a l) : Safe b (Pure.pure a : Make G E α) Q :=
  fun dfa hdfa hb => .inr ⟨a, dfa, rfl, hdfa, le_rfl, h _ hb⟩

lemma Safe.imp {m : Make G E α} (h : Safe b m Q) (hQ : ∀ a l, Q a l → Q' a l) : Safe b m Q' := by
  intro dfa hdfa hb
  rcases h dfa hdfa hb with hfail | ⟨a, dfa', ha, hdfa', hle, hq⟩
  · exact .inl hfail
  · exact .inr ⟨a, dfa', ha, hdfa', hle, hQ a _ hq⟩

lemma Safe.bind {m : Make G E α} {f : α → Make G E β} (hm : Safe b m Q)
    (hf : ∀ a l, b ≤ l → Q a l → Safe l (f a) R) : Safe b (m >>= f) R := by
  intro dfa hdfa hb
  rcases hm dfa hdfa hb with ⟨e, he, hallowed⟩ | ⟨a, dfa₁, ha, hdfa₁, hle, hq⟩
  · exact .inl ⟨e, by rw [bind_apply, he]; rfl, hallowed⟩
  · have hbind : (m >>= f) dfa = f a dfa₁ := by
      rw [bind_apply, ha]
      rfl
    rw [hbind]
    rcases hf a _ (hb.trans hle) hq dfa₁ hdfa₁ le_rfl with hfail | ⟨y, dfa', hy, hdfa', hle', hr⟩
    · exact .inl hfail
    · exact .inr ⟨y, dfa', hy, hdfa', hle.trans hle', hr⟩

lemma Safe.mapM {xs : List α} {f : α → Make G E β} (hR : ∀ y l l', l ≤ l' → R y l → R y l')
    (hf : ∀ a ∈ xs, ∀ l, b ≤ l → Safe l (f a) R) : Safe b (xs.mapM f) fun ys l => ∀ y ∈ ys, R y l := by
  induction xs generalizing b with
  | nil =>
    rw [List.mapM_nil]
    exact Safe.pure fun _ _ => List.forall_mem_nil _
  | cons a xs ih =>
    obtain ⟨ha, hxs⟩ := List.forall_mem_cons.mp hf
    rw [List.mapM_cons]
    refine (ha b le_rfl).bind fun y l hl hy => (ih fun a ha l' hl' => hxs a ha l' (hl.trans hl')).bind
      fun ys l' hl' hys => Safe.pure fun l'' hl'' => List.forall_mem_cons.mpr ⟨?_, fun y' hy' => ?_⟩
    · exact hR y l l'' (hl'.trans hl'') hy
    · exact hR y' l' l'' hl'' (hys y' hy')

lemma safe_stateAt {s : ℕ} (hs : s < b) : Safe b (stateAt s : Make G E (MState G E)) fun _ _ => True := by
  intro dfa hdfa hb
  refine .inr ⟨dfa.states[s], dfa, ?_, hdfa, le_rfl, trivial⟩
  rw [stateAt, List.getElem?_eq_getElem (hs.trans_le hb)]

lemma safe_newExpr : Safe b (newExpr : Make G E ℕ) fun _ _ => True :=
  fun _ hdfa _ => .inr ⟨_, _, rfl, hdfa, le_rfl, trivial⟩

lemma safe_remember {s : ℕ} (ps : PatternRows G E) (hs : s < b) : Safe b (remember ps s) fun _ _ => True :=
  fun _ hdfa hb => .inr ⟨_, _, rfl, List.forall_mem_cons.mpr ⟨hs.trans_le hb, hdfa⟩, le_rfl, trivial⟩

lemma safe_makeSwitch {x : Name} {jmps : List (Primitive × ℕ)} {d : Option ℕ} (hjmps : ∀ j ∈ jmps, j.2 < b)
    (hd : ∀ s, d = some s → s < b) : Safe b (makeSwitch x jmps d : Make G E (MState G E)) fun _ _ => True := by
  have hthrow : Safe b (throw .inexhaustive : Make G E (MState G E)) fun _ _ => True := Safe.throw (.inl rfl)
  unfold makeSwitch
  split
  · exact safe_stateAt (hd _ rfl)
  · split_ifs
    · exact safe_stateAt (hjmps _ List.mem_cons_self)
    · exact Safe.pure fun _ _ => trivial
  · exact hthrow
  · split
    · exact Safe.pure fun _ _ => trivial
    · exact safe_stateAt (hjmps _ List.mem_cons_self)
    · split_ifs
      · split
        · exact Safe.pure fun _ _ => trivial
        · exact hthrow
      · exact hthrow

variable [DecidableEq G] [DecidableEq E]

lemma safe_addState (st : MState G E) : Safe b (addState st) fun s l => s < l := by
  intro dfa hdfa _
  by_cases hst : st ∈ dfa.states
  · refine .inr ⟨dfa.states.idxOf st, dfa, ?_, hdfa, le_rfl, List.idxOf_lt_length_of_mem hst⟩
    rw [addState, if_pos hst]
  · have hlen : (dfa.states ++ [st]).length = dfa.states.length + 1 := List.length_append
    refine .inr ⟨dfa.states.length, { dfa with states := dfa.states ++ [st] }, ?_, fun e he => ?_, ?_, ?_⟩
    · rw [addState, if_neg hst]
    · exact (hdfa e he).trans_le (hlen ▸ Nat.le_succ _)
    · exact hlen ▸ Nat.le_succ _
    · exact hlen ▸ Nat.lt_succ_self _

lemma safe_findTable (ps : PatternRows G E) : Safe b (findTable ps) fun o l => ∀ s, o = some s → s < l := by
  intro dfa hdfa _
  cases hfind : dfa.tableCfgStates.find? fun e => sameRows e.1 ps with
  | none =>
    refine .inr ⟨none, dfa, ?_, hdfa, le_rfl, fun s hs => by cases hs⟩
    rw [findTable, hfind]
  | some e =>
    refine .inr ⟨some e.2, { dfa with found := (ps, e.1) :: dfa.found }, ?_, hdfa, le_rfl, ?_⟩
    · rw [findTable, hfind]
    · rintro s ⟨rfl⟩
      exact hdfa e (List.mem_of_find?_eq_some hfind)

end

/-! ### Columns of one kind -/

variable {ps : PatternRows G E} {c b : ℕ} {xs : List Column} {x : Column}

lemma TableOk.splits {S : Type} {svalue : Pattern → Option S} (hok : TableOk xs ps) (hx : xs[c]? = some x)
    (h : ∀ p, InColumn ps c p → svalue p = none → p.isAny = true) : Splits svalue ps c := by
  intro r hr
  obtain ⟨p, hp, -⟩ := hok.inColumn hx hr
  exact ⟨p, hp, h p ⟨r, hr, hp⟩⟩

lemma splits_literals (hok : TableOk xs ps) (hx : xs[c]? = some x) {y : Name} {v : Primitive}
    (hp : InColumn ps c (.literal y v)) : Splits litValue ps c := by
  refine hok.splits hx fun q hq hnone => ?_
  obtain ⟨t, ht⟩ := hok.columnTy hx
  have hty := ht q hq
  obtain rfl := Pattern.hasTy_literal.mp (ht _ hp)
  generalize primType v = ty at hty
  cases hty with
  | any => rfl
  | literal => cases hnone

lemma splits_arrays (hok : TableOk xs ps) (hx : xs[c]? = some x) {y : Name} {qs : List Pattern}
    (hp : InColumn ps c (.array y qs)) : Splits maSize ps c := by
  refine hok.splits hx fun q hq hnone => ?_
  obtain ⟨t, ht⟩ := hok.columnTy hx
  obtain ⟨t', rfl, -⟩ := columnTy_array ht hp
  cases ht q hq with
  | any => rfl
  | array => cases hnone

lemma splits_variants (hok : TableOk xs ps) (hx : xs[c]? = some x) {y : Name} {lbl : Bytes} {q : Pattern}
    (hp : InColumn ps c (.variant y lbl q)) : Splits varCtor ps c := by
  refine hok.splits hx fun q hq hnone => ?_
  obtain ⟨t, ht⟩ := hok.columnTy hx
  obtain ⟨ts, t', rfl, -⟩ := columnTy_variant ht hp
  cases ht q hq with
  | any => rfl
  | variant => cases hnone

lemma exists_mapM {α β : Type} {f : α → Option β} {as : List α} (h : ∀ a ∈ as, (f a).isSome) :
    ∃ bs, as.mapM f = some bs := by
  induction as with
  | nil => exact ⟨[], rfl⟩
  | cons a as ih =>
    obtain ⟨ha, has⟩ := List.forall_mem_cons.mp h
    obtain ⟨y, hy⟩ := Option.isSome_iff_exists.mp ha
    obtain ⟨ys, hys⟩ := ih has
    exact ⟨y :: ys, by rw [List.mapM_cons, hy, hys]; rfl⟩

/-- Every row is taken apart. -/
lemma exists_takeApart (hok : TableOk xs ps) (hx : xs[c]? = some x) {parts : Pattern → Option (List Pattern)}
    (h : ∀ p, InColumn ps c p → (parts p).isSome) : ∀ r ∈ ps, (takeApart parts c r).isSome := by
  intro r hr
  obtain ⟨p, hp, -⟩ := hok.inColumn hx hr
  obtain ⟨qs, hqs⟩ := Option.isSome_iff_exists.mp (h p ⟨r, hr, hp⟩)
  rw [takeApart_eq_some.mpr ⟨p, hp, qs, hqs, rfl⟩]
  rfl

lemma exists_split {S : Type} [DecidableEq S] {svalue : Pattern → Option S}
    {matchRow : Pattern → PatternRow G E → PatternRow G E} {anyRow : S → PatternRow G E → PatternRow G E}
    (hsplits : Splits svalue ps c) (acc : List (S × PatternRows G E) × PatternRows G E) :
    ∃ acc', ps.foldlM (splitRow svalue matchRow anyRow c) acc = some acc' := by
  induction ps generalizing acc with
  | nil => exact ⟨acc, rfl⟩
  | cons r ps ih =>
    obtain ⟨⟨p, hp, hany⟩, hps⟩ := List.forall_mem_cons.mp hsplits
    obtain ⟨acc₁, hacc₁⟩ : ∃ acc₁, splitRow svalue matchRow anyRow c acc r = some acc₁ := by
      rw [splitRow, hp]
      cases hsv : svalue p with
      | some sv => exact ⟨_, by simp only [Option.bind_eq_bind, Option.bind_some, hsv]; rfl⟩
      | none => exact ⟨_, by simp only [Option.bind_eq_bind, Option.bind_some, hsv, hany hsv, if_true]; rfl⟩
    obtain ⟨acc', hacc'⟩ := ih hps acc₁
    exact ⟨acc', by rw [List.foldlM_cons, hacc₁]; exact hacc'⟩

/-! ### States of typed tables -/

variable {mk : PatternRows G E → Make G E ℕ}

/-- The states of typed tables are made, or the rows do not cover all values. -/
def MakesSafe (mk : PatternRows G E → Make G E ℕ) : Prop :=
  ∀ xs ps b, TableOk xs ps → Safe b (mk ps) fun s l => s < l

lemma safe_missed {S : Type} {svalue : Pattern → Option S} (hmk : MakesSafe mk) (hok : TableOk xs ps)
    (hx : xs[c]? = some x) (hsplits : Splits svalue ps c) (hany : ∃ r ∈ ps, rowValue svalue c r = none) :
    Safe b (mk (anyRows svalue ps c)) fun s l => s < l := by
  obtain ⟨p, hp, hnone⟩ := exists_inColumn_of_rowValue hsplits hany
  have hparts : TakenApart (missedParts svalue) x [] (fun _ => []) ps c :=
    takenApart_nil ⟨p, hp, by simp [missedParts, hnone]⟩ fun p qs h => (missedParts_eq_some h).2
  rw [anyRows_eq hsplits]
  exact hmk _ _ b (hparts.tableOk hok hx)

section

variable {S : Type} [DecidableEq S] {le : S → S → Prop} [DecidableRel le] {svalue : Pattern → Option S}
  {matchRow : Pattern → PatternRow G E → PatternRow G E} {anyRow : S → PatternRow G E → PatternRow G E}
  {makeNextState : Name → S → PatternRows G E → Make G E ℕ}
  {makeSwitchState : Name → List (S × ℕ) → Option ℕ → Make G E (MState G E)}

lemma safe_makeSplitState (hmk : MakesSafe mk) (hok : TableOk xs ps) (hx : xs[c]? = some x)
    (hsplits : Splits svalue ps c)
    (hnext : ∀ sv l, (∃ p, InColumn ps c p ∧ svalue p = some sv) →
      Safe l (makeNextState (columnName ps c) sv (ps.filterMap (branchRow svalue matchRow anyRow c sv)))
        fun s l => s < l)
    (hswitch : ∀ jmps d l, (∀ j ∈ jmps, j.2 < l) → (∀ s, d = some s → s < l) →
      Safe l (makeSwitchState (columnName ps c) jmps d) fun _ _ => True) :
    Safe b (makeSplitState le svalue matchRow anyRow makeNextState makeSwitchState mk ps c) fun _ _ => True := by
  obtain ⟨⟨bs, anys⟩, hsplit⟩ := @exists_split G E ps c S _ svalue matchRow anyRow hsplits ([], [])
  have hinto := splitInto_of_foldlM hsplit
  unfold makeSplitState
  rw [hsplit]
  have hjmps : Safe b ((bs.insertionSort fun b b' => le b.1 b'.1).mapM fun b => do
      let s ← makeNextState (columnName ps c) b.1 b.2
      return (b.1, s)) fun jmps l => ∀ j ∈ jmps, j.2 < l := by
    refine Safe.mapM (fun j l l' hl hj => hj.trans_le hl) fun b' hb' l _ => ?_
    have hb' := (List.perm_insertionSort _ bs).mem_iff.mp hb'
    rw [hinto.branch b' hb']
    have hvalue := exists_inColumn_of_rowValue hsplits ((hinto.keys b'.1).mp (List.mem_map_of_mem hb'))
    exact (hnext b'.1 l hvalue).bind fun s l' _ hs => Safe.pure fun l'' hl => hs.trans_le hl
  refine hjmps.bind fun jmps l _ hjmps => ?_
  have hfinish : ∀ d l', l ≤ l' → (∀ s, d = some s → s < l') →
      Safe l' (makeSwitchState (columnName ps c) jmps d) fun _ _ => True :=
    fun d l' hl hd => hswitch jmps d l' (fun j hj => (hjmps j hj).trans_le hl) hd
  dsimp only
  split_ifs with hempty
  · exact (Safe.pure (Q := fun d l => ∀ s, d = some s → s < l) fun _ _ s hs => by cases hs).bind hfinish
  · rw [hinto.map_anys]
    refine (safe_missed hmk hok hx hsplits (hinto.exists_any hempty)).bind fun s l' hl hs => ?_
    refine (Safe.pure (Q := fun d l => ∀ s, d = some s → s < l) fun l'' hl' s' hs' => ?_).bind fun d l'' hl' hd =>
      hfinish d l'' (hl.trans hl') hd
    obtain rfl := Option.some.inj hs'
    exact hs.trans_le hl'

end

lemma safe_makeLiteralState (hmk : MakesSafe mk) (hok : TableOk xs ps) (hx : xs[c]? = some x) {y : Name}
    {v₀ : Primitive} (hp₀ : InColumn ps c (.literal y v₀)) : Safe b (makeLiteralState mk ps c) fun _ _ => True := by
  refine safe_makeSplitState hmk hok hx (splits_literals hok hx hp₀) (fun v l hv => ?_) fun jmps d l hj hd =>
    safe_makeSwitch hj hd
  obtain ⟨p, hp, hlit⟩ := hv
  have hparts := takenApart_nil (x := x) ⟨p, hp, isSome_branchParts hlit⟩ literalParts_eq_nil
  rw [literalRows_eq]
  exact hmk _ _ l (hparts.tableOk hok hx)

lemma safe_makeVariantState (hmk : MakesSafe mk) (hok : TableOk xs ps) (hx : xs[c]? = some x) {y : Name}
    {lbl₀ : Bytes} {q : Pattern} (hp₀ : InColumn ps c (.variant y lbl₀ q)) :
    Safe b (makeVariantState mk ps c) fun _ _ => True := by
  have hsplits := splits_variants hok hx hp₀
  refine safe_makeSplitState hmk hok hx hsplits (fun lbl l hlbl => ?_) fun jmps d l _ _ => Safe.pure fun _ _ => trivial
  rw [variantRows_eq]
  exact hmk _ _ l ((takenApart_variant (x := x) hsplits hlbl).tableOk hok hx)

lemma safe_makeRecordState (hmk : MakesSafe mk) (hok : TableOk xs ps) (hx : xs[c]? = some x) {y : Name}
    {fs : List (Bytes × Pattern)} (hp : headPattern ps c = some (.record y fs)) :
    Safe b (makeRecordState mk ps c) fun _ _ => True := by
  have hin := inColumn_headPattern hp
  have hall : ∀ q, InColumn ps c q → (recordParts fs.length q).isSome := by
    intro q hq
    obtain ⟨t, ht⟩ := hok.columnTy hx
    obtain ⟨ts, rfl, -⟩ := columnTy_record ht hin
    cases ht q hq <;> rfl
  obtain ⟨cdef, hcdef⟩ := exists_mapM (exists_takeApart hok hx hall)
  have hrow : recordRow c fs.length = takeApart (recordParts fs.length) c :=
    funext fun r => recordRow_eq (G := G) (E := E) fs.length r
  rw [makeRecordState, hp]
  simp only [hrow, hcdef]
  rw [← filterMap_of_mapM hcdef]
  exact (hmk _ _ b ((takenApart_record hok hx hin).tableOk hok hx)).bind fun _ _ _ _ => Safe.pure fun _ _ => trivial

section

variable [DecidableEq G] [DecidableEq E]

lemma safe_makeArrayState (hmk : MakesSafe mk) (hok : TableOk xs ps) (hx : xs[c]? = some x) {y : Name}
    {qs : List Pattern} (hp₀ : InColumn ps c (.array y qs)) : Safe b (makeArrayState mk ps c) fun _ _ => True := by
  refine safe_makeSplitState hmk hok hx (splits_arrays hok hx hp₀) (fun n l hn => ?_) fun jmps d l hj hd => ?_
  · rw [arrayRows_eq]
    exact (hmk _ _ l ((takenApart_array (x := x) hn).tableOk hok hx)).bind fun _ _ _ _ => safe_addState _
  · refine (safe_makeSwitch (List.forall_mem_map.mpr hj) hd).bind fun st _ _ _ => (safe_addState st).bind fun _ _ _ _ =>
      safe_newExpr.bind fun _ _ _ _ => Safe.pure fun _ _ => trivial

lemma safe_makeSuccState (hmk : MakesSafe mk) (hok : TableOk xs ps) (hc : Pivot ps c) :
    Safe b (makeSuccState mk ps c) fun _ _ => True := by
  obtain ⟨p, hp, hany⟩ := hc
  have hin := inColumn_headPattern hp
  obtain ⟨x, hx⟩ := hok.exists_column hin
  rw [makeSuccState, hp]
  cases p with
  | any y vn => cases hany
  | literal y q => exact safe_makeLiteralState hmk hok hx hin
  | array y qs => exact safe_makeArrayState hmk hok hx hin
  | record y fs => exact safe_makeRecordState hmk hok hx hp
  | variant y lbl q => exact safe_makeVariantState hmk hok hx hin

end

lemma safe_makeCharArrayState (hmk : MakesSafe mk) (hok : TableOk xs ps) (hx : xs[c]? = some x)
    (hcan : canMakeCharArrayState ps c = true) : Safe b (makeCharArrayState mk ps c) fun _ _ => True := by
  obtain ⟨n, hn, hle⟩ := alignSize_eight (maxStringLen ps c + 1)
  obtain ⟨hcol, -⟩ := stringColumn_of_can hok hx hcan (by omega : maxStringLen ps c < 8 * n)
  have hall : ∀ q, InColumn ps c q → (stringParts (8 * n) q).isSome := by
    intro q hq
    rcases hcol.parts hq with ⟨-, hparts⟩ | ⟨y, ma, w, -, -, -, -, hparts⟩
    · rw [hparts, Option.isSome_some]
    · rw [hparts, Option.isSome_some]
  obtain ⟨nps, hnps⟩ := exists_mapM (exists_takeApart hok hx hall)
  have hrow : addSATableRow c (8 * n) = takeApart (stringParts (8 * n)) c :=
    funext fun r => addSATableRow_eq (G := G) (E := E) (8 * n) r
  rw [makeCharArrayState, hn]
  simp only [hrow, hnps]
  rw [← filterMap_of_mapM hnps]
  exact safe_newExpr.bind fun _ l _ _ => (hmk _ _ l ((takenApart_string (x := x) hcol).tableOk hok hx)).bind
    fun _ _ _ _ => Safe.pure fun _ _ => trivial

/-! ### The compiler -/

variable [DecidableEq G] [DecidableEq E]

lemma safe_makeFinishState (hmk : MakesSafe mk) (hok : TableOk xs ps) :
    Safe b (makeFinishState mk ps) fun s l => s < l := by
  cases ps with
  | nil => exact absurd rfl hok.nonempty
  | cons r tail =>
    rw [makeFinishState]
    split
    · exact safe_addState _
    · refine (safe_addState _).bind fun finish l _ _ => ?_
      split_ifs with htail
      · exact Safe.throw (.inr (.inl rfl))
      · exact (hmk xs tail l (hok.tail (by simpa using htail))).bind fun next _ _ _ =>
          (safe_addState _).bind fun guardS _ _ _ => safe_addState _

lemma safe_makeDFAState (fuel : ℕ) : MakesSafe (makeDFAState fuel : PatternRows G E → Make G E ℕ) := by
  induction fuel with
  | zero => exact fun xs ps b _ => Safe.throw (.inr (.inr rfl))
  | succ fuel ih =>
    intro xs₀ xps b hok₀
    obtain ⟨xs, hok, -, -⟩ := @dropUnusedColumns_ok G E (fun _ => true) xps xs₀ hok₀
    rw [makeDFAState]
    simp only
    split
    · rename_i c hc
      obtain ⟨hcan, x, hx⟩ := hok.column_of_can hc
      exact (safe_makeCharArrayState ih hok hx hcan).bind fun st _ _ _ => safe_addState st
    · refine (safe_findTable _).bind fun o l _ ho => ?_
      cases o with
      | some s => exact Safe.pure fun l' hl => (ho s rfl).trans_le hl
      | none =>
        have hremember : ∀ s l, s < l → Safe l (do
            remember (dropUnusedColumns xps) s
            return s : Make G E ℕ) fun s l => s < l :=
          fun s l hs => (safe_remember _ hs).bind fun _ l' hl _ => Safe.pure fun l'' hl' => hs.trans_le (hl.trans hl')
        simp only
        split
        · rename_i c hc
          exact (safe_makeSuccState ih hok (pivot_of_choosePivotColumn hc)).bind fun st _ _ _ =>
            (safe_addState st).bind fun s l' _ hs => hremember s l' hs
        · exact (safe_makeFinishState ih hok).bind fun s l' _ hs => hremember s l' hs

/-- A typed table whose rows cover all values has its states made. -/
lemma makeDFA_of_enoughFuel (hok : TableOk xs ps) {fuel : ℕ} (hfuel : enoughFuel ps ≤ fuel) :
    makeDFA fuel ps = .error .inexhaustive ∨ makeDFA fuel ps = .error .inexhaustiveAfterGuard ∨
      ∃ root dfa, makeDFA fuel ps = .ok (root, dfa) := by
  have hfinish : Safe 0 (ps.mapM fun r => addState (.finishExpr r.result : MState G E)) fun _ _ => True :=
    (Safe.mapM (fun _ _ _ _ h => h) fun r _ l _ => (safe_addState _).imp fun _ _ _ => trivial).imp
      fun _ _ _ => trivial
  have hmake := hfinish.bind fun _ l _ _ => safe_makeDFAState fuel xs ps l hok
  rcases hmake ⟨[], [], 0, []⟩ (List.forall_mem_nil _) le_rfl with ⟨f, hf, rfl | rfl | rfl⟩ | ⟨root, dfa, hres, -⟩
  · exact .inl hf
  · exact .inr (.inl hf)
  · exact absurd hf (settles_makeDFA hfuel hfuel).2
  · exact .inr (.inr ⟨root, dfa, hres⟩)

end Hobbes.Match.Table
