import Hobbes.Parse.ParserEval
import Hobbes.Parse.Table

/-!
# Calls of the state functions

For every way in which a state function goes on there is one lemma that says what a call of it
returns. They are what the generated code is known by.
-/

namespace Hobbes.Parse

open Core

variable {V : Type} {env : Env V} {arr : List UInt8} {q j pos : ℕ} {sd : ℤ} {vs ws : List V}

/-! ### The variables of a function -/

/-- The variables that the code of an action refers to. -/
structure InScope (env : Env V) (arr : List UInt8) (pos : ℕ) (sd : ℤ) (ws : List V) : Prop where
  arr : env .arr = some (.arr arr)
  i : env .i = some (.size pos)
  sd : env .sd = some (.int sd)
  v : ∀ k w, ws[k]? = some w → env (.v k) = some (.value w)

lemma bindAll_cons_self (y : Var) (v : Val V) (ps : List Var) (us : List (Val V)) :
    bindAll (y :: ps) (v :: us) y = some v := by
  simp [bindAll]

lemma bindAll_cons_of_ne {y y' : Var} (h : y' ≠ y) (v : Val V) (ps : List Var)
    (us : List (Val V)) : bindAll (y :: ps) (v :: us) y' = bindAll ps us y' := by
  rw [bindAll, List.zip_cons_cons, List.lookup_cons, beq_false_of_ne h]
  rfl

lemma bindAll_varNames (vs : List V) (k : ℕ) :
    bindAll (ParserEvalInfo.varNames vs.length) (vs.map .value) (.v k) =
      (vs[k]?).map .value := by
  simpa [bindAll] using lookup_varNames (vs.map Val.value) k

lemma inScope_input (arr : List UInt8) (pos : ℕ) (sd : ℤ) (vs : List V) : InScope
    (bindAll (.arr :: .i :: .sd :: ParserEvalInfo.varNames vs.length)
      (.arr arr :: .size pos :: .int sd :: vs.map .value)) arr pos sd vs where
  arr := bindAll_cons_self ..
  i := by rw [bindAll_cons_of_ne (by simp), bindAll_cons_self]
  sd := by rw [bindAll_cons_of_ne (by simp), bindAll_cons_of_ne (by simp), bindAll_cons_self]
  v k w hw := by
    rw [bindAll_cons_of_ne (by simp), bindAll_cons_of_ne (by simp), bindAll_cons_of_ne (by simp),
      bindAll_varNames, hw]
    rfl

/-- A value is bound at the end of the variables. -/
lemma InScope.set (h : InScope env arr pos sd vs) (w : V) :
    InScope (env.set (.v vs.length) (.value w)) arr pos sd (vs ++ [w]) where
  arr := by simp [Env.set, h.arr]
  i := by simp [Env.set, h.i]
  sd := by simp [Env.set, h.sd]
  v k u hu := by
    rcases Nat.lt_trichotomy k vs.length with hlt | rfl | hgt
    · rw [List.getElem?_append_left hlt] at hu
      simp [Env.set, Nat.ne_of_lt hlt, h.v k u hu]
    · rw [List.getElem?_concat_length] at hu
      simp [Env.set, Option.some.inj hu]
    · rw [List.getElem?_eq_none (by simpa [Nat.succ_le_iff] using hgt)] at hu
      cases hu

lemma InScope.set_other (h : InScope env arr pos sd ws) {y : Var} (hy : y = .j ∨ y = .sdp)
    (v : Val V) : InScope (env.set y v) arr pos sd ws := by
  rcases hy with rfl | rfl <;>
    exact ⟨by simp [Env.set, h.arr], by simp [Env.set, h.i], by simp [Env.set, h.sd],
      fun k w hw => by simp [Env.set, h.v k w hw]⟩

lemma zip_output (vs : List V) (x : Val V) :
    (ParserEvalInfo.varNames vs.length ++ [Var.x]).zip (vs.map Val.value ++ [x]) =
      (ParserEvalInfo.varNames vs.length).zip (vs.map .value) ++ [(.x, x)] := by
  rw [List.zip_append (by simp [ParserEvalInfo.varNames])]
  rfl

/-- What an output function is called on. -/
lemma bindAll_output_x (arr : List UInt8) (sd : ℤ) (vs : List V) (x : Val V) :
    bindAll (.arr :: .sd :: (ParserEvalInfo.varNames vs.length ++ [.x]))
      (.arr arr :: .int sd :: (vs.map .value ++ [x])) .x = some x := by
  rw [bindAll_cons_of_ne (by simp), bindAll_cons_of_ne (by simp), bindAll, zip_output,
    List.lookup_append, lookup_varNames_ne (by simp)]
  simp

lemma bindAll_output_sd (vs : List V) (x : Val V) :
    bindAll (.arr :: .sd :: (ParserEvalInfo.varNames vs.length ++ [.x]))
      (.arr arr :: .int sd :: (vs.map .value ++ [x])) .sd = some (.int sd) := by
  rw [bindAll_cons_of_ne (by simp), bindAll_cons_self]

/-- The variables of an output function, once what was reduced is matched. -/
lemma inScope_output (arr : List UInt8) (sd : ℤ) (vs : List V) (x : Val V) (i : ℕ) (sdp : ℤ) (w : V) : InScope
    ((((bindAll (.arr :: .sd :: (ParserEvalInfo.varNames vs.length ++ [.x]))
      (.arr arr :: .int sd :: (vs.map .value ++ [x]))).set .i (.size i)).set .sdp (.int sdp)).set
        (.v vs.length) (.value w)) arr i sd (vs ++ [w]) := by
  refine InScope.set ⟨?_, ?_, ?_, fun k u hu => ?_⟩ w
  · simp [Env.set, bindAll]
  · simp [Env.set]
  · simp only [Env.set, reduceCtorEq, if_false]
    rw [bindAll_cons_of_ne (by simp), bindAll_cons_self]
  · have hk : k < vs.length := (List.getElem?_eq_some_iff.mp hu).1
    have hv := bindAll_varNames vs k
    rw [bindAll, hu] at hv
    simp only [Env.set, reduceCtorEq, if_false]
    rw [bindAll_cons_of_ne (by simp), bindAll_cons_of_ne (by simp), bindAll,
      zip_output, List.lookup_append, hv]
    rfl

lemma InScope.forall₂_drop (h : InScope env arr pos sd ws) {m n : ℕ} (hlen : ws.length = m)
    (hn : n ≤ m) : List.Forall₂ (fun y v => env y = some v)
      ((List.range n).map fun i => .v ((m - n) + i)) ((ws.drop (m - n)).map .value) := by
  refine List.forall₂_iff_get.mpr ⟨by simp; omega, fun k h₁ h₂ => ?_⟩
  simp only [List.length_map, List.length_range] at h₁
  have hk : m - n + k < ws.length := by omega
  simpa using h.v (m - n + k) _ (List.getElem?_eq_getElem hk)

lemma InScope.forall₂_varNames (h : InScope env arr pos sd ws) {n : ℕ} (hn : n ≤ ws.length) :
    List.Forall₂ (fun y v => env y = some v) (ParserEvalInfo.varNames n)
      ((ws.take n).map .value) := by
  refine List.forall₂_iff_get.mpr ⟨by simp [ParserEvalInfo.varNames, hn], fun k h₁ h₂ => ?_⟩
  simp only [ParserEvalInfo.varNames, List.length_map, List.length_range] at h₁
  simpa [ParserEvalInfo.varNames] using
    h.v k _ (List.getElem?_eq_getElem (Nat.lt_of_lt_of_le h₁ hn))

variable [LinearOrder (Terminal Sym)] {unit : V} {L : LetRec V} {pei : ParserEvalInfo V}
  {r x : Val V} {e : ParseExpr V}

/-- A call of `.sqi` on the character at `pos`, with the stack depth and the last values. -/
def CallInput (unit : V) (L : LetRec V) (arr : List UInt8) (q pos : ℕ) (sd : ℤ) (vs : List V)
    (r : Val V) : Prop :=
  ∃ ps b, L.lookup (.input q) = some (ps, b) ∧
    Evals unit L (bindAll ps (.arr arr :: .size pos :: .int sd :: vs.map .value)) b r

/-- A call of `.sqo` on `x`. -/
def CallOutput (unit : V) (L : LetRec V) (arr : List UInt8) (q : ℕ) (sd : ℤ) (vs : List V)
    (x r : Val V) : Prop :=
  ∃ ps b, L.lookup (.output q) = some (ps, b) ∧
    Evals unit L (bindAll ps (.arr arr :: .int sd :: (vs.map .value ++ [x]))) b r

lemma evals_callOutput (h : InScope env arr pos sd ws) (hlen : pei.parseDepth q ≤ ws.length)
    (he : Evals unit L env e x)
    (hcall : CallOutput unit L arr q sd (ws.take (pei.parseDepth q)) x r) :
    Evals unit L env (pei.callOutput q e) r := by
  obtain ⟨ps, b, hL, hb⟩ := hcall
  refine Evals.fncall ?_ hL hb
  have hvars : List.Forall₂ (Evals unit L env)
      (ParserEvalInfo.vars (.arr :: .sd :: ParserEvalInfo.varNames (pei.parseDepth q)))
      (.arr arr :: .int sd :: (ws.take (pei.parseDepth q)).map .value) :=
    Evals.vars (.cons h.arr (.cons h.sd (h.forall₂_varNames hlen)))
  exact List.rel_append hvars (.cons he .nil)

/-! ### Actions -/

lemma evals_shift (h : InScope env arr pos sd ws) (hlen : ws.length = pei.parseDepth q + 1)
    (hd : pei.parseDepth j ≤ pei.parseDepth q + 1) (he : pei.doAction q (.shift j) = .ok e)
    (hin : CallInput unit L arr j (pos + 1) (sd + 1)
      (ws.drop (pei.parseDepth q + 1 - pei.parseDepth j)) x)
    (hout : if pei.needsOutputFunction q
      then CallOutput unit L arr q sd (ws.take (pei.parseDepth q)) x r else r = x) :
    Evals unit L env e r := by
  have hshift : Evals unit L env (.letIn .j (.ladd (.var .i) (.size 1))
      (.letIn .sdp (.iadd (.var .sd) (.int 1))
        (.fncall (.input j) (ParserEvalInfo.vars (.arr :: .j :: .sdp :: pei.shiftVarNames q j))))) x := by
    obtain ⟨ps, b, hL, hb⟩ := hin
    have hj := h.set_other (.inl rfl) (.size (pos + 1))
    have hsdp := hj.set_other (.inr rfl) (.int (sd + 1))
    refine Evals.letIn (.ladd (.var h.i) (.size 1))
      (Evals.letIn (.iadd (.var hj.sd) (.int 1)) (Evals.fncall (Evals.vars ?_) hL hb))
    exact .cons hsdp.arr (.cons (by simp [Env.set]) (.cons (by simp [Env.set])
      (hsdp.forall₂_drop hlen hd)))
  have he' := Except.ok.inj he
  split_ifs at he' hout
  · rw [← he']
    exact evals_callOutput h (by omega) hshift hout
  · rw [← he', hout]
    exact hshift

omit [LinearOrder (Terminal Sym)] in
/-- A rule only looks at the values of its own symbols. -/
lemma ParseRule.bound_congr {rl : ParseRule V} {f g : ℕ → Option V}
    (h : ∀ k < rl.bindings.length, f k = g k) : rl.bound f = rl.bound g := by
  funext nm
  simp only [ParseRule.bound]
  cases hfind : rl.bindings.zipIdx.reverse.find? fun b => b.1.1 ≠ [95] ∧ b.1.1 = nm with
  | none => rfl
  | some b =>
    have hmem : b ∈ rl.bindings.zipIdx := List.mem_reverse.mp (List.mem_of_find?_eq_some hfind)
    exact h b.2 (List.mem_zipIdx' hmem).1

lemma evals_reduction {s : Terminal Sym} {rule m : ℕ} {rl : ParseRule V}
    (h : InScope env arr pos sd ws) (he : pei.doAction q (.reduce s rule m) = .ok e)
    (hrl : pei.evalExpr s rule = some rl) (hlen : rl.bindings.length ≤ ws.length) :
    Evals unit L env e (.reduction s pos (sd - pei.parseDepth q)
      (rl.reducer (rl.bound fun k => ws[k]?))) := by
  simp only [ParserEvalInfo.doAction, ParserEvalInfo.makeReduction, hrl] at he
  obtain rfl := Except.ok.inj he
  have hbound : rl.bound env.valueAt = rl.bound fun k => ws[k]? := by
    refine ParseRule.bound_congr fun k hk => ?_
    have hws : ws[k]? = some ws[k] := List.getElem?_eq_getElem (Nat.lt_of_lt_of_le hk hlen)
    rw [Env.valueAt, h.v k _ hws, hws]
  rw [← hbound]
  exact .reduction (.var h.i) (.isub (.var h.sd) (.int _)) (.reducer rl)

lemma evals_accept {w : V} (h : InScope env arr pos sd ws) (he : pei.doAction q .accept = .ok e)
    (hw : ws[0]? = some w) : Evals unit L env e (.success w) := by
  obtain rfl := Except.ok.inj he
  exact .success (.var (h.v 0 w hw))

/-! ### The functions of the states -/

lemma lookup_makeParserState {bs : LetRec V} {f : StateFn} (h : pei.makeParserState q = .ok bs)
    (hf : f ≠ .input q) (hf' : f ≠ .output q) : bs.lookup f = none := by
  obtain ⟨si, -, h⟩ := bind_eq_ok.mp h
  split_ifs at h
  · obtain ⟨so, -, h⟩ := bind_eq_ok.mp h
    obtain rfl := Except.ok.inj h
    rw [lookup_cons_of_ne hf', lookup_cons_of_ne hf, List.lookup_nil]
  · obtain rfl := Except.ok.inj h
    rw [lookup_cons_of_ne hf, List.lookup_nil]

/-- The functions of a state are found under their names. -/
lemma lookup_states (hL : pei.makeParserStates = .ok L) (hq : q < pei.table.length) :
    (∃ si, pei.makeInputParserState q = .ok si ∧ L.lookup (.input q) = some si) ∧
      (pei.needsOutputFunction q = true →
        ∃ so, pei.makeOutputParserState q = .ok so ∧ L.lookup (.output q) = some so) := by
  obtain ⟨bss, hbss, hflat⟩ := bind_eq_ok.mp hL
  obtain rfl := Except.ok.inj hflat
  have hqs : q ∈ List.range pei.table.length := List.mem_range.mpr hq
  have hall := mapM_eq_ok.mp hbss
  clear hbss hL hflat
  generalize List.range pei.table.length = qs at hall hqs
  induction hall with
  | nil => cases hqs
  | @cons i bs qs bss hi hall ih =>
    rw [List.flatten_cons]
    simp only [List.lookup_append]
    by_cases hqi : q = i
    · subst hqi
      obtain ⟨si, hsi, hbs⟩ := bind_eq_ok.mp hi
      split_ifs at hbs with hout
      · obtain ⟨so, hso, hbs⟩ := bind_eq_ok.mp hbs
        obtain rfl := Except.ok.inj hbs
        refine ⟨⟨si, hsi, ?_⟩, fun _ => ⟨so, hso, by simp⟩⟩
        rw [lookup_cons_of_ne (by simp)]
        simp
      · obtain rfl := Except.ok.inj hbs
        exact ⟨⟨si, hsi, by simp⟩, fun hout' => absurd hout' hout⟩
    · rw [lookup_makeParserState hi (by simpa using hqi) (by simp),
        lookup_makeParserState hi (by simp) (by simpa using hqi)]
      exact ih ((List.mem_cons.mp hqs).resolve_left hqi)

/-! ### Input functions -/

def lookaheadAt (arr : List UInt8) (pos : ℕ) : Terminal Sym :=
  match arr[pos]? with
  | some c => .user (.character c)
  | none => .endOfFile

/-- The values in scope of an action: a character has a value too. -/
def scopeAt (unit : V) (arr : List UInt8) (pos : ℕ) (vs : List V) : List V :=
  match arr[pos]? with
  | some _ => vs ++ [unit]
  | none => vs

omit [LinearOrder (Terminal Sym)] in
lemma length_le_scopeAt (unit : V) (arr : List UInt8) (pos : ℕ) (vs : List V) :
    vs.length ≤ (scopeAt unit arr pos vs).length := by
  rw [scopeAt]
  split
  · exact List.length_append.symm ▸ Nat.le_add_right ..
  · exact Nat.le_refl _

/-- The row of a character, where there is one. -/
lemma lookup_inputRows {prs : List (UInt8 × ParseExpr V)} {sps : LrState Sym} {c : UInt8}
    (h : List.Forall₂ (fun sp pr => pei.inputRow q sp = .ok pr) sps prs) :
    match sps.lookup (.user (.character c)) with
    | some act => ∃ e, pei.doAction q act = .ok e ∧
        prs.lookup c = some (.letIn (.v (pei.parseDepth q)) .unit e)
    | none => prs.lookup c = none := by
  induction h with
  | nil => rfl
  | @cons sp pr sps prs hsp hall ih =>
    obtain ⟨t, act⟩ := sp
    obtain ⟨c', hc', hsp⟩ := bind_eq_ok.mp hsp
    obtain ⟨e, he, hsp⟩ := bind_eq_ok.mp hsp
    obtain rfl := Except.ok.inj hsp
    obtain rfl : t = .user (.character c') := by
      unfold ParserEvalInfo.matchPattern at hc'
      split at hc'
      · rename_i c'' hcase
        rw [← Except.ok.inj hc']
        exact hcase
      · cases hc'
    by_cases hc : c = c'
    · subst hc
      simp only [List.lookup_cons_self]
      exact ⟨e, he, rfl⟩
    · rw [lookup_cons_of_ne (by simpa using hc), lookup_cons_of_ne hc]
      exact ih

section

variable (hL : pei.makeParserStates = .ok L) (hq : q < pei.table.length)
  (hvs : vs.length = pei.parseDepth q) (hpos : pos ≤ arr.length)
include hL hq hvs hpos

/-- A call of an input function evaluates what is generated for the next terminal. -/
lemma callInput_action {act : Action Sym}
    (hact : (pei.row q).lookup (lookaheadAt arr pos) = some act)
    (hnt : pei.isNonTerminal (lookaheadAt arr pos) = false)
    (h : ∀ env e, InScope env arr pos sd (scopeAt unit arr pos vs) → pei.doAction q act = .ok e →
      Evals unit L env e r) : CallInput unit L arr q pos sd vs r := by
  obtain ⟨⟨si, hsi, hlookup⟩, -⟩ := lookup_states hL hq
  obtain ⟨prs, hprs, hsi⟩ := bind_eq_ok.mp hsi
  obtain ⟨eofAct, heof, hsi⟩ := bind_eq_ok.mp hsi
  obtain rfl := Except.ok.inj hsi
  refine ⟨_, _, hlookup, ?_⟩
  have hscope := inScope_input arr pos sd vs
  rw [hvs] at hscope
  refine Evals.ifEnd hscope.arr hscope.i ?_
  split_ifs with hend
  · have hnone : arr[pos]? = none := List.getElem?_eq_none (Nat.le_of_eq hend.symm)
    simp only [lookaheadAt, hnone] at hact
    simp only [ParserEvalInfo.eofAct, hact] at heof
    exact h _ _ (by simpa [scopeAt, hnone] using hscope) heof
  · have hlt : pos < arr.length := Nat.lt_of_le_of_ne hpos hend
    have hsome : arr[pos]? = some arr[pos] := List.getElem?_eq_getElem hlt
    simp only [lookaheadAt, hsome] at hact hnt
    have hrows := lookup_inputRows (c := arr[pos]) (mapM_eq_ok.mp hprs)
    rw [lookup_filter (fun t => decide (t ≠ .endOfFile ∧ (!pei.isNonTerminal t) = true)),
      if_pos (by simp [hnt]), hact] at hrows
    obtain ⟨e, he, hrow⟩ := hrows
    refine Evals.matchElement hscope.arr hscope.i hsome ?_
    rw [hrow, Option.getD_some]
    refine Evals.letIn Evals.unit_ (h _ e ?_ he)
    have hset := hscope.set unit
    rw [hvs] at hset
    simpa [scopeAt, hsome] using hset

lemma callInput_failure (hact : (pei.row q).lookup (lookaheadAt arr pos) = none ∨
    pei.isNonTerminal (lookaheadAt arr pos) = true) (heof : pei.isNonTerminal .endOfFile = false) :
    CallInput unit L arr q pos sd vs .failure := by
  obtain ⟨⟨si, hsi, hlookup⟩, -⟩ := lookup_states hL hq
  obtain ⟨prs, hprs, hsi⟩ := bind_eq_ok.mp hsi
  obtain ⟨eofAct, heofAct, hsi⟩ := bind_eq_ok.mp hsi
  obtain rfl := Except.ok.inj hsi
  refine ⟨_, _, hlookup, ?_⟩
  have hscope := inScope_input arr pos sd vs
  rw [hvs] at hscope
  refine Evals.ifEnd hscope.arr hscope.i ?_
  split_ifs with hend
  · have hnone : arr[pos]? = none := List.getElem?_eq_none (Nat.le_of_eq hend.symm)
    simp only [lookaheadAt, hnone] at hact
    simp only [ParserEvalInfo.eofAct, hact.resolve_right (by simp [heof])] at heofAct
    rw [← Except.ok.inj heofAct]
    exact Evals.failure
  · have hlt : pos < arr.length := Nat.lt_of_le_of_ne hpos hend
    have hsome : arr[pos]? = some arr[pos] := List.getElem?_eq_getElem hlt
    simp only [lookaheadAt, hsome] at hact
    have hrows := lookup_inputRows (c := arr[pos]) (mapM_eq_ok.mp hprs)
    have hfilter : ((pei.row q).filter fun sp => sp.1 ≠ .endOfFile ∧
        !pei.isNonTerminal sp.1).lookup (.user (.character arr[pos])) = none := by
      rw [lookup_filter (fun t => decide (t ≠ .endOfFile ∧ (!pei.isNonTerminal t) = true))]
      split_ifs with hkeep
      · exact hact.resolve_right (by simpa using hkeep)
      · rfl
    rw [hfilter] at hrows
    refine Evals.matchElement hscope.arr hscope.i hsome ?_
    rw [hrows]
    exact Evals.failure

end

/-! ### Output functions -/

omit [LinearOrder (Terminal Sym)] in
lemma fst_outputRow {sp : Terminal Sym × Action Sym} {pr : Terminal Sym × ParseExpr V}
    (h : pei.outputRow q sp = .ok pr) : pr.1 = sp.1 := by
  unfold ParserEvalInfo.outputRow at h
  split at h
  · rw [← Except.ok.inj h]
  · cases h

lemma find?_outputRows {prs : List (Terminal Sym × ParseExpr V)} {sps : LrState Sym}
    {s : Terminal Sym} {sdp : ℤ}
    (h : List.Forall₂ (fun sp pr => pei.outputRow q sp = .ok pr) sps prs) {act : Action Sym}
    (hact : sps.lookup s = some act) (hsd : sd = sdp) :
    ∃ pr, pei.outputRow q (s, act) = .ok pr ∧
      prs.find? (fun row => row.1 = s ∧ sd = sdp) = some pr := by
  induction h with
  | nil => cases hact
  | @cons sp pr sps prs hsp hall ih =>
    obtain ⟨t, act'⟩ := sp
    have hpr : pr.1 = t := fst_outputRow hsp
    by_cases hs : s = t
    · subst hs
      rw [List.lookup_cons_self, Option.some.injEq] at hact
      subst hact
      exact ⟨pr, hsp, by simp [hpr, hsd]⟩
    · rw [lookup_cons_of_ne hs] at hact
      obtain ⟨pr', hpr', hfind⟩ := ih hact
      refine ⟨pr', hpr', ?_⟩
      rw [List.find?_cons_of_neg (by simp [hpr, Ne.symm hs])]
      exact hfind

section

variable (hL : pei.makeParserStates = .ok L) (hq : q < pei.table.length)
  (hvs : vs.length = pei.parseDepth q) (hneeds : pei.needsOutputFunction q = true)
include hL hq hvs hneeds

lemma callOutput_goto {s : Terminal Sym} {i : ℕ} {w : V} {y : Val V}
    (hact : (pei.row q).lookup s = some (.goTo j)) (hnt : pei.isNonTerminal s = true)
    (hd : pei.parseDepth j ≤ pei.parseDepth q + 1)
    (hin : CallInput unit L arr j i (sd + 1)
      ((vs ++ [w]).drop (pei.parseDepth q + 1 - pei.parseDepth j)) y)
    (hout : CallOutput unit L arr q sd vs y r) :
    CallOutput unit L arr q sd vs (.reduction s i sd w) r := by
  obtain ⟨so, hso, hlookup⟩ := (lookup_states hL hq).2 hneeds
  obtain ⟨prs, hprs, hso⟩ := bind_eq_ok.mp hso
  obtain rfl := Except.ok.inj hso
  refine ⟨_, _, hlookup, ?_⟩
  have hfilter : ((pei.row q).filter fun sp => pei.isNonTerminal sp.1).lookup s =
      some (.goTo j) := by
    rw [lookup_filter, if_pos hnt, hact]
  obtain ⟨pr, hpr, hfind⟩ := find?_outputRows (mapM_eq_ok.mp hprs) hfilter (Eq.refl sd)
  obtain rfl := Except.ok.inj hpr
  rw [← hvs] at hd hin ⊢
  have hx := bindAll_output_x arr sd vs (.reduction s i sd w)
  have hscope := inScope_output arr sd vs (.reduction s i sd w) i sd w
  refine Evals.matchResult hx (bindAll_output_sd ..) hfind ?_
  refine evals_callOutput hscope (by simp [hvs]) (x := y) ?_ (by simpa [← hvs] using hout)
  obtain ⟨ps, b, hin, hb⟩ := hin
  refine Evals.fncall ?_ hin hb
  have hargs : List.Forall₂ (Evals unit L _) _ _ :=
    Evals.vars (hscope.forall₂_drop (n := pei.parseDepth j) (by simp) hd)
  refine .cons (.var hscope.arr) (.cons (.var hscope.i) (.cons (.iadd (.var hscope.sd) (.int 1)) ?_))
  rwa [ParserEvalInfo.shiftVarNames, ← hvs]

/-- An output function returns what it does not match. -/
lemma callOutput_pass {x : Val V} (hx : ∀ s i sdp w, x = .reduction s i sdp w → sdp = sd →
    ∀ j, (pei.row q).lookup s ≠ some (.goTo j)) : CallOutput unit L arr q sd vs x x := by
  obtain ⟨so, hso, hlookup⟩ := (lookup_states hL hq).2 hneeds
  obtain ⟨prs, hprs, hso⟩ := bind_eq_ok.mp hso
  obtain rfl := Except.ok.inj hso
  refine ⟨_, _, hlookup, ?_⟩
  rw [← hvs]
  refine Evals.matchResult_pass (bindAll_output_x arr sd vs x) (bindAll_output_sd ..)
    fun s i sdp w hred row hrow hs hsd => ?_
  have hall := mapM_eq_ok.mp hprs
  obtain ⟨⟨s', a⟩, hmem, hrow'⟩ := exists_of_forall₂ hall hrow
  obtain rfl : s' = s := (fst_outputRow hrow').symm.trans hs
  obtain ⟨act, hact⟩ := Option.isSome_iff_exists.mp
    (List.lookup_isSome_iff.mpr ⟨(s', a), hmem, beq_self_eq_true s'⟩)
  obtain ⟨pr, hpr, -⟩ := find?_outputRows hall hact hsd
  have hnt : pei.isNonTerminal s' = true := by simpa using (List.mem_filter.mp hmem).2
  rw [lookup_filter, if_pos hnt] at hact
  cases act with
  | goTo j => exact hx s' i sdp w hred hsd.symm j hact
  | _ => cases hpr

end

end Hobbes.Parse
