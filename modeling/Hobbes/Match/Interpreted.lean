import Hobbes.Match.StateTable

/-!
# Interpreting primitive matches

The table of a primitive match is run to the row that the compiled function returns, and the expression
that is made around either selects the result of that row.
-/

namespace Hobbes.Match

open Core Lang

/-- The search in a row finds the transition for a value, or the default. -/
lemma IDFAState.transition_eq (row : IDFAState) (h : Ascending (Ops.signed 64) row.transitions Prod.fst)
    (v : Long) : row.transition v = some ((row.transitions.lookup v).getD row.dflt) := by
  rw [IDFAState.transition]
  cases hlookup : row.transitions.lookup v with
  | none =>
    have hne : ∀ p ∈ row.transitions, p.1 ≠ v := fun p hp heq => by
      simpa [heq] using List.lookup_eq_none_iff.mp hlookup p hp
    simp [bsearch_eq_length (Ops.ordered_signed 64) h hne]
  | some tr =>
    obtain ⟨j, hget⟩ := List.mem_iff_getElem?.mp (mem_of_lookup hlookup)
    have hne := (List.getElem?_eq_some_iff.mp hget).1.ne
    have hsearch := bsearch_eq_some (Ops.ordered_signed 64) h hget rfl
    simp [hsearch, hne, hget]

/-! ### Filling in the arguments -/

lemma exists_foldlM_assign {vars : List (Bytes × Long)} {l : List ((_ : Bytes) × ℕ)}
    (hvars : ∀ arg ∈ l, (vars.lookup arg.1).isSome) {vs : List Long}
    (hlt : ∀ arg ∈ l, arg.2 < vs.length) (hnodup : (l.map Sigma.snd).Nodup) :
    ∃ vs', l.foldlM (assign vars) vs = some vs' ∧
      (∀ arg ∈ l, vs'[arg.2]? = vars.lookup arg.1) ∧
      ∀ j ∉ l.map Sigma.snd, vs'[j]? = vs[j]? := by
  induction l generalizing vs with
  | nil => exact ⟨vs, rfl, by simp, by simp⟩
  | cons arg l ih =>
    obtain ⟨v, hv⟩ := Option.isSome_iff_exists.mp (hvars arg List.mem_cons_self)
    have hpos := hlt arg List.mem_cons_self
    obtain ⟨hnotMem, hnodup⟩ := List.nodup_cons.mp hnodup
    have hlt' : ∀ a ∈ l, a.2 < (vs.set arg.2 v).length := fun a ha => by
      simpa using hlt a (List.mem_cons_of_mem _ ha)
    obtain ⟨vs', hfold, hassigned, hkept⟩ :=
      ih (fun a ha => hvars a (List.mem_cons_of_mem _ ha)) hlt' hnodup
    refine ⟨vs', by simp [assign, hv, hpos, hfold], fun a ha => ?_, fun j hj => ?_⟩
    · rcases List.mem_cons.mp ha with rfl | ha
      · rw [hkept _ hnotMem, List.getElem?_set_self hpos, hv]
      · exact hassigned a ha
    · rw [List.map_cons, List.mem_cons, not_or] at hj
      rw [hkept j hj.2, List.getElem?_set_ne (Ne.symm hj.1)]

namespace MDFA

variable {E : Type} {dfa : MDFA E} {params : List Bytes} {n s : ℕ} {argpos : ArgPos}
  {localstate : List ℕ}

/-! ### Running the table -/

/-- What holds of all states that a switch goes to holds of the one for a value. -/
lemma forall_target {P : ℕ → Prop} {jumps : List (Primitive × ℕ)} {dflt : ℕ}
    (hjumps : ∀ jmp ∈ jumps, P jmp.2) (hdflt : P dflt) (v : Primitive) :
    P ((jumps.lookup v).getD dflt) := by
  cases hlookup : jumps.lookup v with
  | none => exact hdflt
  | some t => exact hjumps (v, t) (mem_of_lookup hlookup)

lemma walk_switchVal {args : Bytes → Option Long} {var : Bytes} {jumps : List (Primitive × ℕ)}
    {dflt : ℕ} (hs : dfa.states[s]? = some (.switchVal var jumps (some dflt))) :
    dfa.walk args (n + 1) s = (args var).bind fun v =>
      dfa.walk args n ((jumps.lookup (.long v)).getD dflt) := by
  rw [walk, hs]
  rfl

lemma Unfolds.runLongDFA {rows : List IDFAState} {vs : List Long} {args : Bytes → Option Long}
    {e : E} {i : ℕ} (h : dfa.Unfolds params n s)
    (hrows : ∀ t ∈ localstate, ∃ row, rows[localstate.idxOf t]? = some row ∧
      dfa.Encodes argpos localstate t row)
    (hvs : ∀ var pos, argpos.lookup var = some pos → vs[pos]? = args var)
    (hs : s ∈ localstate) (hwalk : dfa.walk args n s = some e) (hi : dfa.exprIdxs e = some i) :
    Match.runLongDFA rows n (localstate.idxOf s) vs = some i := by
  induction h with
  | finishExpr hs' hi' =>
    obtain ⟨row, -, hencodes⟩ := hrows _ hs
    obtain ⟨_, _, _, hswitch, -⟩ := hencodes.switch
    rw [hs'] at hswitch
    cases hswitch
  | @switchVal n s dflt var jumps hs' hvar hlong hdistinct hjumps hdflt ihjumps ihdflt =>
    obtain ⟨row, hrow, hencodes⟩ := hrows _ hs
    obtain ⟨_, _, _, hswitch, hreads, hto⟩ := hencodes.switch
    rw [hs'] at hswitch
    cases hswitch
    rw [walk_switchVal hs', Option.bind_eq_some_iff] at hwalk
    obtain ⟨v, hv, hwalk⟩ := hwalk
    have htarget := forall_target hjumps hdflt (.long v)
    have ih := forall_target (P := fun t => t ∈ localstate → dfa.walk args n t = some e →
      Match.runLongDFA rows n (localstate.idxOf t) vs = some i) ihjumps ihdflt (.long v)
    simp only [Match.runLongDFA, hrow, Option.bind_eq_bind, Option.bind_some, hvs _ _ hreads, hv,
      row.transition_eq hencodes.ascending v]
    specialize hto v
    generalize (row.transitions.lookup v).getD row.dflt = tr at hto ⊢
    generalize (jumps.lookup (.long v)).getD dflt = t at hto hwalk htarget ih
    cases hto with
    | done hs₁ hi₁ =>
      obtain ⟨n, rfl⟩ : ∃ m, n = m + 1 := by cases htarget <;> exact ⟨_, rfl⟩
      rw [MDFA.walk, hs₁, Option.some.injEq] at hwalk
      rw [← hwalk, hi₁] at hi
      exact hi
    | step hs₁ hmem => exact ih hmem hwalk

/-! ### The rows of a match -/

variable (dfa) in
/-- Rows with their expressions, and a row for every walk from `s`. -/
structure Collects (n s : ℕ) (results results' : Std.TreeMap ℕ E) : Prop where
  sound : (∀ i e, results[i]? = some e → dfa.exprIdxs e = some i) →
    ∀ i e, results'[i]? = some e → dfa.exprIdxs e = some i
  mono : ∀ i ∈ results, i ∈ results'
  covers : ∀ args e i, dfa.walk args n s = some e → dfa.exprIdxs e = some i → i ∈ results'

variable {results : Std.TreeMap ℕ E}

lemma exists_foldlM_collects {f : ℕ → Std.TreeMap ℕ E → Option (Std.TreeMap ℕ E)}
    {jumps : List (Primitive × ℕ)}
    (h : ∀ jmp ∈ jumps, ∀ results, ∃ results', f jmp.2 results = some results' ∧
      dfa.Collects n jmp.2 results results') (results : Std.TreeMap ℕ E) :
    ∃ results', jumps.foldlM (fun results jmp => f jmp.2 results) results = some results' ∧
      ((∀ i e, results[i]? = some e → dfa.exprIdxs e = some i) →
        ∀ i e, results'[i]? = some e → dfa.exprIdxs e = some i) ∧
      (∀ i ∈ results, i ∈ results') ∧
      ∀ jmp ∈ jumps, ∀ args e i, dfa.walk args n jmp.2 = some e → dfa.exprIdxs e = some i →
        i ∈ results' := by
  induction jumps generalizing results with
  | nil => exact ⟨results, rfl, id, fun _ => id, by simp⟩
  | cons jmp jumps ih =>
    obtain ⟨results₁, hf, hcollects⟩ := h jmp List.mem_cons_self results
    obtain ⟨results₂, hfold, hsound, hmono, hcovers⟩ :=
      ih (fun jmp hjmp => h jmp (List.mem_cons_of_mem _ hjmp)) results₁
    refine ⟨results₂, by rw [List.foldlM_cons, hf]; exact hfold, hsound ∘ hcollects.sound,
      fun i hi => hmono i (hcollects.mono i hi), fun jmp' hjmp' => ?_⟩
    rcases List.mem_cons.mp hjmp' with rfl | hjmp'
    · exact fun args e i hwalk hi => hmono i (hcollects.covers args e i hwalk hi)
    · exact hcovers jmp' hjmp'

lemma Unfolds.reachableRowExprs (h : dfa.Unfolds params n s) (results : Std.TreeMap ℕ E) :
    ∃ results', dfa.reachableRowExprs n s results = some results' ∧
      dfa.Collects n s results results' := by
  induction h generalizing results with
  | @finishExpr n s i e hs hi =>
    refine ⟨results.insert i e, by simp [MDFA.reachableRowExprs, hs, hi], fun hsound j e' hj => ?_,
      fun j hj => Std.TreeMap.mem_insert.mpr (.inr hj), fun args e' j hwalk hj => ?_⟩
    · rw [Std.TreeMap.getElem?_insert] at hj
      split at hj
      · next heq =>
        rw [compare_eq_iff_eq] at heq
        cases hj
        rwa [← heq]
      · exact hsound j e' hj
    · rw [MDFA.walk, hs, Option.some.injEq] at hwalk
      rw [← hwalk, hi, Option.some.injEq] at hj
      rw [← hj]
      exact Std.TreeMap.mem_insert_self
  | @switchVal n s dflt var jumps hs hvar hlong hdistinct hjumps hdflt ihjumps ihdflt =>
    obtain ⟨results₁, hd, hcollects⟩ := ihdflt results
    obtain ⟨results₂, hfold, hsound, hmono, hcovers⟩ := exists_foldlM_collects
      (f := dfa.reachableRowExprs n) ihjumps results₁
    refine ⟨results₂, by simp [MDFA.reachableRowExprs, hs, hd, hfold], hsound ∘ hcollects.sound,
      fun i hi => hmono i (hcollects.mono i hi), fun args e i hwalk hi => ?_⟩
    rw [walk_switchVal hs, Option.bind_eq_some_iff] at hwalk
    obtain ⟨v, -, hwalk⟩ := hwalk
    exact forall_target (P := fun t => ∀ args e i, dfa.walk args n t = some e →
        dfa.exprIdxs e = some i → i ∈ results₂) hcovers
      (fun args e i hwalk hi => hmono i (hcollects.covers args e i hwalk hi)) (.long v) args e i
      hwalk hi

/-- The switch on the row has a case for each expression that can be reached. -/
lemma Unfolds.findRowResults (h : dfa.Unfolds params n s) :
    ∃ bs, dfa.findRowResults n s = some bs ∧
      ∀ args e i, dfa.walk args n s = some e → dfa.exprIdxs e = some i → bs.lookup i = some e := by
  obtain ⟨results, hresults, hcollects⟩ := h.reachableRowExprs ∅
  refine ⟨results.toList, by simp [MDFA.findRowResults, hresults], fun args e i hwalk hi => ?_⟩
  have hmem := hcollects.covers args e i hwalk hi
  obtain ⟨e', he'⟩ := Option.isSome_iff_exists.mp (Std.TreeMap.mem_iff_isSome_getElem?.mp hmem)
  have hi' := hcollects.sound (by simp) i e' he'
  have heq := (dfa.finishExpr_of_exprIdxs e i hi).symm.trans (dfa.finishExpr_of_exprIdxs e' i hi')
  cases heq
  rw [lookup_toList, he']

/-! ### Calls -/

lemma Unfolds.walk_congr {args args' : Bytes → Option Long} (h : dfa.Unfolds params n s)
    (hargs : ∀ var ∈ params, args var = args' var) : dfa.walk args n s = dfa.walk args' n s := by
  induction h with
  | finishExpr hs => simp only [MDFA.walk, hs]
  | @switchVal n s dflt var jumps hs hvar _ _ _ _ ihjumps ihdflt =>
    rw [walk_switchVal hs, walk_switchVal hs, hargs var hvar]
    exact congrArg _ (funext fun v => forall_target
      (P := fun t => dfa.walk args n t = dfa.walk args' n t) ihjumps ihdflt (.long v))

/-- The function that interprets the table returns the row of the walk, whatever was in the argument
vector before. -/
lemma Unfolds.call {root : ℕ} (h : dfa.Unfolds ((dfa.primFArgs root).map Prod.fst) n root)
    {rows : List IDFAState} (hroot : localstate.idxOf root = 0) (hmem : root ∈ localstate)
    (hrows : ∀ t ∈ localstate, ∃ row, rows[localstate.idxOf t]? = some row ∧
      dfa.Encodes (argPos (dfa.primFArgs root)) localstate t row)
    (env : Bytes → Long) {runvargs : List Long} (hlength : runvargs.length = (dfa.primFArgs root).length)
    {e : E} {i : ℕ} (hwalk : dfa.walk (fun var => some (env var)) n root = some e)
    (hi : dfa.exprIdxs e = some i) :
    InterpretedFn.call ⟨(dfa.primFArgs root).map Prod.fst, argPos (dfa.primFArgs root), rows⟩ runvargs
      (((dfa.primFArgs root).map Prod.fst).map env) n = some i := by
  have hpos := positions_argPos (dfa.primFArgs root)
  have hlookup (arg) (harg : arg ∈ (argPos (dfa.primFArgs root)).entries) :=
    lookup_zip_map env (hpos.mem arg harg)
  have hlt (arg) (harg : arg ∈ (argPos (dfa.primFArgs root)).entries) : arg.2 < runvargs.length := by
    simpa [hlength] using hpos.lt arg harg
  obtain ⟨vs, hfold, hassigned, -⟩ := exists_foldlM_assign
    (fun arg harg => Option.isSome_of_eq_some (hlookup arg harg)) hlt hpos.nodup
  have hvs (var pos) (hvar : (argPos (dfa.primFArgs root)).lookup var = some pos) :
      vs[pos]? = some (env var) := by
    have harg := AList.mem_lookup_iff.mp (Option.mem_def.mpr hvar)
    rw [hassigned _ harg, hlookup _ harg]
  rw [InterpretedFn.call, hfold, ← hroot]
  exact h.runLongDFA hrows hvs hmem hwalk hi

/-- Whether a match is interpreted or compiled, it returns the row that the walk from the root reaches,
and the switch on the row selects the expression there. -/
theorem IsPrimMatch.liftPrimMatchExpr_eq {root : ℕ} (h : dfa.IsPrimMatch root) :
    ∃ n, ∀ fuel ≥ n, ∀ interpret, ∃ m, dfa.liftPrimMatchExpr interpret fuel root = some m ∧
      (interpret → ∃ f, dfa.makeInterpretedPrimMatchFunction fuel root = some f ∧
        m.fn = .interpreted f) ∧
      ∀ env runvargs, runvargs.length = (dfa.primFArgs root).length →
        ∃ e i, dfa.walk (fun var => some (env var)) fuel root = some e ∧ dfa.exprIdxs e = some i ∧
          dfa.callPrimMatch m env runvargs fuel = some i ∧ m.select i = e := by
  refine ⟨height dfa.Next root + 1, fun fuel hfuel interpret => ?_⟩
  have hunfolds := h.unfolds fuel .refl (by omega)
  obtain ⟨localstate, rows, hroot, hmem, hmake, hrows⟩ := h.exists_table hunfolds
  obtain ⟨bs, hbs, hselect⟩ := hunfolds.findRowResults
  have hreaches (env : Bytes → Long) : ∃ e i, dfa.walk (fun var => some (env var)) fuel root = some e ∧
      dfa.exprIdxs e = some i := hunfolds.walk fun _ _ => rfl
  obtain ⟨b, bs, rfl⟩ : ∃ b bs', bs = b :: bs' := by
    obtain ⟨e, i, hwalk, hi⟩ := hreaches fun _ => 0
    cases bs with
    | nil => cases hselect _ e i hwalk hi
    | cons b bs => exact ⟨b, bs, rfl⟩
  cases interpret with
  | true =>
    refine ⟨_, by simp [liftPrimMatchExpr, h.longs, hmake, hbs]; rfl, fun _ => ⟨_, hmake, rfl⟩,
      fun env runvargs hlength => ?_⟩
    obtain ⟨e, i, hwalk, hi⟩ := hreaches env
    refine ⟨e, i, hwalk, hi, hunfolds.call hroot hmem hrows env hlength hwalk hi, ?_⟩
    rw [PrimMatchExpr.select, hselect _ e i hwalk hi, Option.getD_some]
  | false =>
    refine ⟨_, by simp [liftPrimMatchExpr, hbs]; rfl, by simp, fun env runvargs hlength => ?_⟩
    obtain ⟨e, i, hwalk, hi⟩ := hreaches env
    refine ⟨e, i, hwalk, hi, ?_, ?_⟩
    · have hcongr := hunfolds.walk_congr fun var hvar => lookup_zip_map env hvar
      simp only [callPrimMatch, runPrimDFA, hcongr, hwalk, Option.bind_some, hi]
    · rw [PrimMatchExpr.select, hselect _ e i hwalk hi, Option.getD_some]

/-- `match x y with | -1 7 -> true | 5 _ -> true | _ 7 -> true | _ _ -> false` -/
def sharedMatch : MDFA Bool where
  states := [.finishExpr true, .finishExpr false, .switchVal [121] [(.long 7, 0)] (some 1),
    .switchVal [120] [(.long (-1), 2), (.long 5, 0)] (some 2)]
  primFArgs _ := [([120], .prim [108, 111, 110, 103] none), ([121], .prim [108, 111, 110, 103] none)]
  exprIdxs e := some (if e then 0 else 1)
  finishExpr_of_exprIdxs := by rintro (_ | _) i ⟨⟩ <;> rfl

lemma sharedMatch_next {s t : ℕ} (h : sharedMatch.Next s t) : t < s := by
  obtain ⟨var, jumps, dflt, hs, ht⟩ := h
  match s, hs with
  | 2, hs =>
    cases hs
    simp at ht
    omega
  | 3, hs =>
    cases hs
    simp at ht
    omega

lemma isPrimMatch_sharedMatch : sharedMatch.IsPrimMatch 3 where
  longs := by decide
  switch := ⟨_, _, _, rfl⟩
  acyclic s _ hs := by
    have hlt {a b : ℕ} (h : Relation.TransGen sharedMatch.Next a b) : b < a := by
      induction h with
      | single h => exact sharedMatch_next h
      | tail _ h ih => exact (sharedMatch_next h).trans ih
    exact lt_irrefl s (hlt hs)
  valid s hs := by
    have hle : s ≤ 3 := by
      induction hs with
      | refl => exact le_rfl
      | tail _ h ih => exact (sharedMatch_next h).le.trans ih
    match s, hle with
    | 0, _ => exact ⟨_, rfl, .finishExpr rfl⟩
    | 1, _ => exact ⟨_, rfl, .finishExpr rfl⟩
    | 2, _ => exact ⟨_, rfl, .switchVal (by decide) (by simp) (by decide)⟩
    | 3, _ => exact ⟨_, rfl, .switchVal (by decide) (by simp) (by decide)⟩

theorem liftPrimMatchExpr_sharedMatch :
    ∃ n, ∀ fuel ≥ n, ∀ interpret, ∃ m,
      sharedMatch.liftPrimMatchExpr interpret fuel 3 = some m ∧
      (interpret → ∃ f, sharedMatch.makeInterpretedPrimMatchFunction fuel 3 = some f ∧
        m.fn = .interpreted f) ∧
      ∀ env runvargs, runvargs.length = 2 →
        ∃ e i, sharedMatch.walk (fun var => some (env var)) fuel 3 = some e ∧
          sharedMatch.exprIdxs e = some i ∧
          sharedMatch.callPrimMatch m env runvargs fuel = some i ∧ m.select i = e :=
  isPrimMatch_sharedMatch.liftPrimMatchExpr_eq

end MDFA

end Hobbes.Match
