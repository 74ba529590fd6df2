import Hobbes.Match.TableWeights

/-!
# Making the states of a table comes to an end
-/

namespace Hobbes.Match.Table

open Core Lang

variable {G E : Type}

/-! ### Computations that do not run out of fuel -/

section

variable {α β : Type}

def Ends (m : Make G E α) : Prop := ∀ dfa, m dfa ≠ .error .outOfFuel

/-- The computations do the same, and do not run out of fuel. -/
def Settles (m m' : Make G E α) : Prop := m = m' ∧ Ends m

lemma Ends.settles {m : Make G E α} (h : Ends m) : Settles m m := ⟨rfl, h⟩

lemma Ends.pure (a : α) : Ends (Pure.pure a : Make G E α) := by
  intro dfa h
  cases h

lemma Ends.throw {f : Failure} (hf : f ≠ .outOfFuel) : Ends (throw f : Make G E α) :=
  fun _ h => hf (Except.error.inj h)

lemma bind_apply (m : Make G E α) (f : α → Make G E β) (dfa : MDFA G E) :
    (m >>= f) dfa = (m dfa).bind fun s => f s.1 s.2 := rfl

lemma Ends.bind {m : Make G E α} {f : α → Make G E β} (hm : Ends m) (hf : ∀ a, Ends (f a)) : Ends (m >>= f) := by
  intro dfa h
  rw [bind_apply] at h
  cases hres : m dfa with
  | error e =>
    rw [hres] at h
    exact hm dfa (hres.trans (congrArg Except.error (Except.error.inj h)))
  | ok s =>
    rw [hres] at h
    exact hf s.1 s.2 h

lemma Settles.bind {m m' : Make G E α} {f f' : α → Make G E β} (hm : Settles m m')
    (hf : ∀ a, Settles (f a) (f' a)) : Settles (m >>= f) (m' >>= f') := by
  obtain ⟨rfl, hends⟩ := hm
  obtain rfl : f = f' := funext fun a => (hf a).1
  exact ⟨rfl, hends.bind fun a => (hf a).2⟩

lemma Settles.mapM {xs : List α} {f f' : α → Make G E β} (h : ∀ a ∈ xs, Settles (f a) (f' a)) :
    Settles (xs.mapM f) (xs.mapM f') := by
  induction xs with
  | nil =>
    rw [List.mapM_nil, List.mapM_nil]
    exact (Ends.pure []).settles
  | cons a xs ih =>
    obtain ⟨ha, hxs⟩ := List.forall_mem_cons.mp h
    rw [List.mapM_cons, List.mapM_cons]
    exact ha.bind fun b => (ih hxs).bind fun bs => (Ends.pure _).settles

lemma ends_stateAt (s : ℕ) : Ends (stateAt s : Make G E (MState G E)) := by
  intro dfa h
  rw [stateAt] at h
  split at h <;> cases h

lemma ends_newExpr : Ends (newExpr : Make G E ℕ) := by
  intro dfa h
  cases h

lemma ends_remember (ps : PatternRows G E) (s : ℕ) : Ends (remember ps s) := by
  intro dfa h
  cases h

lemma ends_makeSwitch (x : Name) (jmps : List (Primitive × ℕ)) (d : Option ℕ) :
    Ends (makeSwitch x jmps d : Make G E (MState G E)) := by
  have hthrow : Ends (throw .inexhaustive : Make G E (MState G E)) := Ends.throw Failure.noConfusion
  unfold makeSwitch
  split
  · exact ends_stateAt _
  · split_ifs
    · exact ends_stateAt _
    · exact Ends.pure _
  · exact hthrow
  · split
    · exact Ends.pure _
    · exact ends_stateAt _
    · split_ifs
      · split
        · exact Ends.pure _
        · exact hthrow
      · exact hthrow

variable [DecidableEq G] [DecidableEq E]

lemma ends_addState (st : MState G E) : Ends (addState st) := by
  intro dfa h
  rw [addState] at h
  split_ifs at h

lemma ends_findTable (ps : PatternRows G E) : Ends (findTable ps) := by
  intro dfa h
  rw [findTable] at h
  split at h <;> cases h

end

/-! ### States that are made of the states of lighter tables -/

variable {ps : PatternRows G E} {c n : ℕ} {mk mk' : PatternRows G E → Make G E ℕ} {p : Pattern}

/-- The states of lighter tables are made to the end. -/
def SettlesBelow (n : ℕ) (ps : PatternRows G E) (mk mk' : PatternRows G E → Make G E ℕ) : Prop :=
  ∀ ps', Lighter n ps' ps → Settles (mk ps') (mk' ps')

section

variable {S : Type} [DecidableEq S] {le : S → S → Prop} [DecidableRel le] {svalue : Pattern → Option S}
  {matchRow : Pattern → PatternRow G E → PatternRow G E} {anyRow : S → PatternRow G E → PatternRow G E}
  {makeNextState makeNextState' : Name → S → PatternRows G E → Make G E ℕ}
  {makeSwitchState : Name → List (S × ℕ) → Option ℕ → Make G E (MState G E)}

lemma settles_makeSplitState (hmk : SettlesBelow n ps mk mk') (hps : Short n ps) (hp : InColumn ps c p)
    (hany : p.isAny = false)
    (hlight : Splits svalue ps c → ∀ sv, Lighter n (ps.filterMap (branchRow svalue matchRow anyRow c sv)) ps)
    (hnext : ∀ x sv ps', Lighter n ps' ps → Settles (makeNextState x sv ps') (makeNextState' x sv ps'))
    (hswitch : ∀ x jmps d, Ends (makeSwitchState x jmps d)) :
    Settles (makeSplitState le svalue matchRow anyRow makeNextState makeSwitchState mk ps c)
      (makeSplitState le svalue matchRow anyRow makeNextState' makeSwitchState mk' ps c) := by
  unfold makeSplitState
  cases hsplit : ps.foldlM (splitRow svalue matchRow anyRow c) ([], []) with
  | none => exact (Ends.throw Failure.noConfusion).settles
  | some acc =>
    obtain ⟨bs, anys⟩ := acc
    have hinto := splitInto_of_foldlM hsplit
    have hmissed : Lightens (missedParts svalue) n ps c :=
      lightens_nil fun q qs hqs => (missedParts_eq_some hqs).2
    refine Settles.bind (.mapM fun b hb => .bind ?_ fun s => (Ends.pure _).settles) fun jmps => ?_
    · refine hnext _ _ _ ?_
      rw [hinto.branch b ((List.perm_insertionSort _ bs).mem_iff.mp hb)]
      exact hlight hinto.total b.1
    · have hfinish : ∀ d, Settles (makeSwitchState (columnName ps c) jmps d)
          (makeSwitchState (columnName ps c) jmps d) := fun d => (hswitch _ _ _).settles
      dsimp only
      split_ifs
      · exact (Ends.pure _).settles.bind hfinish
      · refine .bind (hmk _ ?_) fun s => (Ends.pure _).settles.bind hfinish
        rw [hinto.map_anys, anyRows_eq hinto.total]
        exact hmissed.lighter hps ⟨p, hp, hany⟩

end

section

variable (hmk : SettlesBelow n ps mk mk') (hps : Short n ps) (hp : InColumn ps c p) (hany : p.isAny = false)

include hmk hps hp hany

lemma settles_makeLiteralState : Settles (makeLiteralState mk ps c) (makeLiteralState mk' ps c) := by
  refine settles_makeSplitState hmk hps hp hany (fun _ v => ?_) (fun _ _ ps' h => hmk ps' h) ends_makeSwitch
  rw [literalRows_eq]
  exact (lightens_literals v).lighter hps ⟨p, hp, hany⟩

lemma settles_makeVariantState : Settles (makeVariantState mk ps c) (makeVariantState mk' ps c) := by
  refine settles_makeSplitState hmk hps hp hany (fun hsplits lbl => ?_) (fun _ _ ps' h => hmk ps' h)
    fun x jmps d => Ends.pure _
  rw [variantRows_eq]
  exact (lightens_variants hsplits lbl).lighter hps ⟨p, hp, hany⟩

lemma settles_makeRecordState : Settles (makeRecordState mk ps c) (makeRecordState mk' ps c) := by
  have hthrow : Ends (throw .invalidTable : Make G E (MState G E)) := Ends.throw Failure.noConfusion
  unfold makeRecordState
  cases headPattern ps c with
  | none => exact hthrow.settles
  | some q =>
    cases q with
    | record x fs =>
      simp only
      cases hcdef : ps.mapM (recordRow c fs.length) with
      | none => exact hthrow.settles
      | some cdef =>
        refine .bind (hmk _ ?_) fun _ => (Ends.pure _).settles
        have hcdef' : cdef = ps.filterMap (takeApart (recordParts fs.length) c) := by
          rw [← filterMap_of_mapM hcdef]
          exact List.filterMap_congr fun r _ => recordRow_eq fs.length r
        rw [hcdef']
        exact (lightens_records fs.length).lighter hps ⟨p, hp, hany⟩
    | _ => exact hthrow.settles

variable [DecidableEq G] [DecidableEq E]

lemma settles_makeArrayState : Settles (makeArrayState mk ps c) (makeArrayState mk' ps c) := by
  refine settles_makeSplitState hmk hps hp hany (fun hsplits len => ?_)
    (fun _ _ ps' h => (hmk ps' h).bind fun s => (ends_addState _).settles) fun x jmps d =>
      (ends_makeSwitch _ _ d).bind fun st => (ends_addState st).bind fun s => ends_newExpr.bind fun _ => Ends.pure _
  rw [arrayRows_eq]
  exact (lightens_arrays hsplits len).lighter hps ⟨p, hp, hany⟩

lemma settles_makeSuccState : Settles (makeSuccState mk ps c) (makeSuccState mk' ps c) := by
  have hthrow : Ends (throw .wildcardColumn : Make G E (MState G E)) := Ends.throw Failure.noConfusion
  unfold makeSuccState
  cases headPattern ps c with
  | none => exact hthrow.settles
  | some q =>
    cases q with
    | any y vn => exact hthrow.settles
    | literal y q => exact settles_makeLiteralState hmk hps hp hany
    | array y qs => exact settles_makeArrayState hmk hps hp hany
    | record y fs => exact settles_makeRecordState hmk hps hp hany
    | variant y lbl q => exact settles_makeVariantState hmk hps hp hany

end

lemma settles_makeCharArrayState (hmk : SettlesBelow n ps mk mk') (hps : Short n ps)
    (hcan : canMakeCharArrayState ps c = true) :
    Settles (makeCharArrayState mk ps c) (makeCharArrayState mk' ps c) := by
  rw [canMakeCharArrayState, Bool.and_eq_true, List.any_eq_true] at hcan
  obtain ⟨-, r, hr, hstring⟩ := hcan
  have hne : ∃ p, InColumn ps c p ∧ p.isAny = false := by
    split at hstring
    · rename_i y ma hma
      exact ⟨_, ⟨r, hr, hma⟩, rfl⟩
    · cases hstring
  obtain ⟨k, hk, hlt⟩ := exists_words (c := c) hps
  unfold makeCharArrayState
  rw [hk]
  refine ends_newExpr.settles.bind fun ptr => ?_
  cases hnps : ps.mapM (addSATableRow c (8 * k)) with
  | none => exact (Ends.throw Failure.noConfusion).settles
  | some nps =>
    refine .bind (hmk _ ?_) fun next => (Ends.pure _).settles
    have hnps' : nps = ps.filterMap (takeApart (stringParts (8 * k)) c) := by
      rw [← filterMap_of_mapM hnps]
      exact List.filterMap_congr fun r _ => addSATableRow_eq (8 * k) r
    rw [hnps']
    exact (lightens_strings hlt).lighter hps hne

/-! ### The compiler -/

variable [DecidableEq G] [DecidableEq E]

lemma settles_makeFinishState (hmk : SettlesBelow n ps mk mk') (hps : Short n ps) :
    Settles (makeFinishState mk ps) (makeFinishState mk' ps) := by
  cases ps with
  | nil => exact (Ends.throw Failure.noConfusion).settles
  | cons r tail =>
    rw [makeFinishState, makeFinishState]
    cases r.guard with
    | none => exact (ends_addState _).settles
    | some g =>
      refine (ends_addState _).settles.bind fun finish => ?_
      split_ifs
      · exact (Ends.throw Failure.noConfusion).settles
      · have htail : Lighter n tail (r :: tail) := by
          refine ⟨(List.forall_mem_cons.mp hps).2, ?_⟩
          rw [tableWeight, tableWeight, List.map_cons, List.sum_cons]
          exact Nat.lt_add_of_pos_left (Nat.lt_add_right _ Nat.one_pos)
        exact (hmk tail htail).bind fun next => (ends_addState _).settles.bind fun s => (ends_addState _).settles

/-- With more fuel than the table weighs, its state is the same with any. -/
lemma settles_makeDFAState (fuel fuel' : ℕ) (ps : PatternRows G E) (hps : Short n ps)
    (hfuel : tableWeight (n + 2) ps < fuel) (hfuel' : tableWeight (n + 2) ps < fuel') :
    Settles (makeDFAState fuel ps) (makeDFAState fuel' ps) := by
  induction fuel generalizing fuel' ps with
  | zero => exact absurd hfuel (Nat.not_lt_zero _)
  | succ fuel ih =>
    cases fuel' with
    | zero => exact absurd hfuel' (Nat.not_lt_zero _)
    | succ fuel' =>
      have hshort := dropUnusedColumns_short hps
      have hmk : SettlesBelow n (dropUnusedColumns ps) (makeDFAState fuel) (makeDFAState fuel') := by
        intro ps' hps'
        have hle : tableWeight (n + 2) (dropUnusedColumns ps) ≤ tableWeight (n + 2) ps :=
          tableWeight_dropUnusedColumns ps
        have hlt := hps'.2.trans_le hle
        exact ih fuel' ps' hps'.1 (by omega) (by omega)
      rw [makeDFAState, makeDFAState]
      simp only
      split
      · rename_i c hc
        have hcan : canMakeCharArrayState (dropUnusedColumns ps) c = true := List.find?_some hc
        exact (settles_makeCharArrayState hmk hshort hcan).bind fun st => (ends_addState st).settles
      · refine (ends_findTable _).settles.bind fun o => ?_
        cases o with
        | some s => exact (Ends.pure s).settles
        | none =>
          have hremember : ∀ s, Ends (do
              remember (dropUnusedColumns ps) s
              return s : Make G E ℕ) := fun s => (ends_remember _ s).bind fun _ => Ends.pure s
          simp only
          cases hpivot : choosePivotColumn (dropUnusedColumns ps) with
          | none => exact (settles_makeFinishState hmk hshort).bind fun s => (hremember s).settles
          | some c =>
            obtain ⟨p, hp, hany⟩ := pivot_of_choosePivotColumn hpivot
            exact (settles_makeSuccState hmk hshort (inColumn_headPattern hp) hany).bind fun st =>
              (ends_addState st).settles.bind fun s => (hremember s).settles

lemma settles_makeDFA {ps : PatternRows G E} {fuel fuel' : ℕ} (hfuel : enoughFuel ps ≤ fuel)
    (hfuel' : enoughFuel ps ≤ fuel') : makeDFA fuel ps = makeDFA fuel' ps ∧ makeDFA fuel ps ≠ .error .outOfFuel := by
  have hfinish : Ends (ps.mapM fun r => addState (.finishExpr r.result : MState G E)) :=
    (Settles.mapM fun r _ => (ends_addState _).settles).2
  have hmake := hfinish.settles.bind fun _ =>
    settles_makeDFAState fuel fuel' ps (short_longestArray ps) (Nat.lt_of_succ_le hfuel) (Nat.lt_of_succ_le hfuel')
  exact ⟨congrFun hmake.1 _, hmake.2 _⟩

end Hobbes.Match.Table
