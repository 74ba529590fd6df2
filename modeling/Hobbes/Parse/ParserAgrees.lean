import Mathlib.Data.List.Lex
import Hobbes.Parse.ParserDepth

/-!
# A generated parser does what the driver does

The call of a state function is made inside the calls for the states below it on the stack of the
driver. A reduction leaves as many calls as the depth of its state, while the driver takes as many
states off the stack as the rule is long: the parser follows the driver as long as the two agree.
-/

namespace Hobbes.Parse

open Core Driver

variable {V : Type}

/-- The stack of the driver, with the trees of its states. -/
abbrev Stack := List (ℕ × Tree (Terminal Sym))

namespace ParserEvalInfo

variable [LinearOrder (Terminal Sym)] (pei : ParserEvalInfo V)

/-- A rule is only reduced in a state whose depth is its length. -/
def AtDepth (c : Config Sym) : Prop :=
  ∀ x r m, action pei.table c = some (.reduce x r m) → pei.parseDepth c.state = m

instance : DecidablePred pei.AtDepth := fun c =>
  match h : action pei.table c with
  | some (.reduce x r m) => decidable_of_iff (pei.parseDepth c.state = m) (by simp [AtDepth, h])
  | none | some (.shift _) | some (.goTo _) | some .accept => isTrue (by simp [AtDepth, h])

/-- The parser yields the value of what the driver reads the input as, and fails on an input that
the driver does not accept. -/
def Agrees (unit : V) (L : LetRec V) (arr : List UInt8) : Prop :=
  (∀ v, Yields unit L arr (some v) ↔
    ∃ t, Accepts pei.table (arr.map .character) t ∧ treeValue unit pei.evalExpr t = some v) ∧
  (Yields unit L arr none ↔ ¬ ∃ t, Accepts pei.table (arr.map .character) t)

/-- The value of what a state has read. -/
def stackValue (unit : V) (z : ℕ × Tree (Terminal Sym)) : V :=
  (treeValue unit pei.evalExpr z.2).getD unit

/-- The values that the functions of the top state are called on. -/
def args (unit : V) (zs : Stack) : List V :=
  ((zs.take (pei.parseDepth (topState zs))).map (pei.stackValue unit)).reverse

/-- Every state of the stack is deeper by at most one than the state below it. -/
def StackOk (unit : V) : Stack → Prop
  | [] => True
  | z :: zs => (treeValue unit pei.evalExpr z.2).isSome ∧ z.1 < pei.table.length ∧
      1 ≤ pei.parseDepth z.1 ∧ pei.parseDepth z.1 ≤ pei.parseDepth (topState zs) + 1 ∧
        StackOk unit zs

/-- What the top state of the stack returns, once it has got `y` from a call. -/
def Frame (unit : V) (L : LetRec V) (arr : List UInt8) (zs : Stack) (y r : Val V) : Prop :=
  if pei.needsOutputFunction (topState zs)
    then CallOutput unit L arr (topState zs) zs.length (pei.args unit zs) y r else r = y

/-- What the parser returns, once the top state of the stack has returned `y`. -/
def Frames (unit : V) (L : LetRec V) (arr : List UInt8) : Stack → Val V → Val V → Prop
  | [], y, r | [_], y, r => pei.Frame unit L arr [] y r
  | _ :: z :: zs, y, r => ∃ y', pei.Frame unit L arr (z :: zs) y y' ∧ Frames unit L arr (z :: zs) y' r

/-- `y` is not for the state at the top of the stack. -/
def Passes (zs : Stack) (y : Val V) : Prop :=
  ∀ s i w, y = .reduction s i zs.length w → ∀ j, (pei.row (topState zs)).lookup s ≠ some (.goTo j)

/-- The result of the parser is the one of the driver. -/
def Outcome (unit : V) (r : Val V) : Option (Tree (Terminal Sym)) → Prop
  | some t => ∃ w, r = .success w ∧ treeValue unit pei.evalExpr t = some w
  | none => (∀ w, r ≠ .success w) ∧ pei.Passes [] r

variable {unit : V} {L : LetRec V} {pei : ParserEvalInfo V}
  {root : Sym} {px : Precedence Sym} {arr : List UInt8} {zs below : Stack}
  {z : ℕ × Tree (Terminal Sym)} {y r : Val V} {pos : ℕ}

/-! ### The values of the stack -/

lemma StackOk.drop (h : pei.StackOk unit zs) (m : ℕ) : pei.StackOk unit (zs.drop m) := by
  induction zs generalizing m with
  | nil => simpa using h
  | cons z zs ih =>
    cases m with
    | zero => exact h
    | succ m => exact ih h.2.2.2.2 m

lemma StackOk.treeValues (h : pei.StackOk unit zs) (m : ℕ) :
    treeValue.treeValues unit pei.evalExpr ((zs.take m).reverse.map Prod.snd) =
      some ((zs.take m).map (pei.stackValue unit)).reverse := by
  have hmap : ∀ zs : Stack, (∀ z ∈ zs, (treeValue unit pei.evalExpr z.2).isSome) →
      treeValue.treeValues unit pei.evalExpr (zs.map Prod.snd) =
        some (zs.map (pei.stackValue unit)) := by
    intro zs hzs
    induction zs with
    | nil => rfl
    | cons z zs ih =>
      obtain ⟨hz, hzs⟩ := List.forall_mem_cons.mp hzs
      obtain ⟨v, hv⟩ := Option.isSome_iff_exists.mp hz
      rw [List.map_cons, treeValue.treeValues, hv, ih hzs, List.map_cons, stackValue, hv]
      rfl
  rw [← List.map_reverse]
  refine hmap _ fun z hz => ?_
  have hmem : z ∈ zs := List.mem_of_mem_take (List.mem_reverse.mp hz)
  clear hz
  induction zs with
  | nil => cases hmem
  | cons z' zs ih =>
    rcases List.mem_cons.mp hmem with rfl | hmem
    exacts [h.1, ih h.2.2.2.2 hmem]

lemma StackOk.parseDepth_le (hprep : Prepared pei root px) (h : pei.StackOk unit zs) :
    pei.parseDepth (topState zs) ≤ zs.length := by
  induction zs with
  | nil => exact Nat.le_of_eq hprep.parseDepth_zero
  | cons z zs ih =>
    obtain ⟨-, -, -, hle, hzs⟩ := h
    exact Nat.le_trans hle (Nat.succ_le_succ (ih hzs))

lemma StackOk.length_args (hprep : Prepared pei root px) (h : pei.StackOk unit zs) :
    (pei.args unit zs).length = pei.parseDepth (topState zs) := by
  simp [args, h.parseDepth_le hprep]

/-- The values that a state hands on to the one above it. -/
lemma args_cons (unit : V) (hz : 1 ≤ pei.parseDepth z.1)
    (hle : pei.parseDepth z.1 ≤ pei.parseDepth (topState zs) + 1)
    (hlen : pei.parseDepth (topState zs) ≤ zs.length) :
    (pei.args unit zs ++ [pei.stackValue unit z]).drop
      (pei.parseDepth (topState zs) + 1 - pei.parseDepth z.1) = pei.args unit (z :: zs) := by
  have hrev : pei.args unit zs ++ [pei.stackValue unit z] =
      (((z :: zs).take (pei.parseDepth (topState zs) + 1)).map (pei.stackValue unit)).reverse := by
    simp [args]
  rw [hrev, List.drop_reverse, ← List.map_take, List.take_take, args, topState]
  congr 3
  simp only [List.length_map, List.length_take, List.length_cons]
  omega

/-! ### Returning through the states of the stack -/

lemma frame_pass (hL : pei.makeParserStates = .ok L) (hprep : Prepared pei root px)
    (hlt : topState zs < pei.table.length) (hzs : pei.StackOk unit zs) (hy : pei.Passes zs y) :
    pei.Frame unit L arr zs y y := by
  unfold Frame
  split_ifs with hout
  · refine callOutput_pass hL hlt (hzs.length_args hprep) hout fun s i sdp w hred hsd => ?_
    subst hsd
    exact hy s i w hred
  · rfl

lemma StackOk.topState_lt (h : pei.StackOk unit zs) (hzero : 0 < pei.table.length) :
    topState zs < pei.table.length := by
  cases zs with
  | nil => exact hzero
  | cons z zs => exact h.2.1

/-- A call for the top state that is taken over by another. -/
lemma Frames.imp {z' : ℕ × Tree (Terminal Sym)} {y' : Val V}
    (h : pei.Frames unit L arr (z :: below) y r)
    (hy : ∀ r, pei.Frame unit L arr below y r → pei.Frame unit L arr below y' r) :
    pei.Frames unit L arr (z' :: below) y' r := by
  cases below with
  | nil => exact hy r h
  | cons z'' below =>
    obtain ⟨r', hr', h⟩ := h
    exact ⟨r', hy r' hr', h⟩

section

variable (hL : pei.makeParserStates = .ok L) (hprep : Prepared pei root px)
  (hzero : 0 < pei.table.length)
include hL hprep hzero

/-- What no state wants is returned by the parser. -/
lemma frames_self (hzs : pei.StackOk unit zs) (hy : ∀ m, pei.Passes (zs.drop m) y) :
    pei.Frames unit L arr zs y y := by
  induction zs with
  | nil => exact frame_pass hL hprep hzero hzs (hy 0)
  | cons z zs ih =>
    have hzs' : pei.StackOk unit zs := hzs.2.2.2.2
    have hpass : pei.Frame unit L arr zs y y :=
      frame_pass hL hprep (hzs'.topState_lt hzero) hzs' (hy 1)
    cases zs with
    | nil => exact hpass
    | cons z' zs => exact ⟨y, hpass, ih hzs' fun m => hy (m + 1)⟩

/-- A reduction leaves the calls above the state that it is for. -/
lemma frames_pop (front : Stack) {s : Terminal Sym} {w : V} (hzs : pei.StackOk unit (front ++ z :: below))
    (hr : pei.Frames unit L arr (z :: below) (.reduction s pos below.length w) r) :
    pei.Frames unit L arr (front ++ z :: below) (.reduction s pos below.length w) r := by
  induction front with
  | nil => exact hr
  | cons z' front ih =>
    obtain ⟨-, -, -, -, hzs⟩ := hzs
    have hpass : pei.Frame unit L arr (front ++ z :: below) (.reduction s pos below.length w)
        (.reduction s pos below.length w) := by
      refine frame_pass hL hprep (hzs.topState_lt hzero) hzs fun s' i w' hred => ?_
      injection hred with _ _ hsd
      have hlen : below.length = (front ++ z :: below).length := by exact_mod_cast hsd
      simp only [List.length_append, List.length_cons] at hlen
      omega
    cases front with
    | nil => exact ⟨_, hpass, hr⟩
    | cons z'' front => exact ⟨_, hpass, ih hzs⟩

lemma frames_drop {m : ℕ} {s : Terminal Sym} {w : V} (hzs : pei.StackOk unit zs) (hm : m ≤ zs.length)
    (hnil : m = 0 → zs = [])
    (hr : pei.Frames unit L arr (z :: zs.drop m) (.reduction s pos (zs.drop m).length w) r) :
    pei.Frames unit L arr zs (.reduction s pos (zs.drop m).length w) r := by
  cases m with
  | zero =>
    obtain rfl := hnil rfl
    exact hr
  | succ m =>
    have hsplit : zs.take m ++ zs[m] :: zs.drop (m + 1) = zs := by
      rw [← List.drop_eq_getElem_cons, List.take_append_drop]
    have hpop := frames_pop hL hprep hzero (zs.take m) (z := zs[m])
      (by rwa [hsplit]) (hr.imp fun _ => id)
    rwa [hsplit] at hpop

end

/-! ### One step of the driver -/

omit [LinearOrder (Terminal Sym)] in
lemma lookahead_eq {c : Config Sym} (hrest : c.rest = (arr.drop pos).map .character) :
    c.lookahead = lookaheadAt arr pos := by
  rw [Config.lookahead, hrest, lookaheadAt]
  rcases Nat.lt_or_ge pos arr.length with hlt | hge
  · rw [List.drop_eq_getElem_cons hlt, List.getElem?_eq_getElem hlt]
    rfl
  · rw [List.drop_eq_nil_of_le hge, List.getElem?_eq_none hge]
    rfl

omit [LinearOrder (Terminal Sym)] in
lemma lt_length_of_lookaheadAt (h : lookaheadAt arr pos ≠ .endOfFile) : pos < arr.length := by
  by_contra hge
  refine h ?_
  rw [lookaheadAt, List.getElem?_eq_none (Nat.le_of_not_lt hge)]

section

variable (hL : pei.makeParserStates = .ok L) (hprep : Prepared pei root px)
  (hzero : 0 < pei.table.length)
  (hzs : pei.StackOk unit zs) (hpos : pos ≤ arr.length)
include hL hprep hzero hzs hpos

/-- The driver shifts. -/
lemma callInput_shift {j : ℕ} {t : Tree (Terminal Sym)} {o : Option (Tree (Terminal Sym))}
    (hact : (pei.row (topState zs)).lookup (lookaheadAt arr pos) = some (.shift j))
    (ht : treeValue unit pei.evalExpr t = some unit)
    (ih : ∃ y r, CallInput unit L arr j (pos + 1) (zs.length + 1) (pei.args unit ((j, t) :: zs)) y ∧
      pei.Frames unit L arr ((j, t) :: zs) y r ∧ pei.Outcome unit r o) :
    ∃ y r, CallInput unit L arr (topState zs) pos zs.length (pei.args unit zs) y ∧
      pei.Frames unit L arr zs y r ∧ pei.Outcome unit r o := by
  obtain ⟨y, r, hin, hframes, hr⟩ := ih
  obtain ⟨hnt, hne, -, hone, hle⟩ := hprep.shift_entry hact
  have hlen := hzs.length_args hprep
  have hlt : pos < arr.length := lt_length_of_lookaheadAt hne
  have hsome : arr[pos]? = some arr[pos] := List.getElem?_eq_getElem hlt
  have hargs := args_cons unit (z := (j, t)) hone hle (hzs.parseDepth_le hprep)
  rw [stackValue, ht, Option.getD_some] at hargs
  -- the call is made in the frame of the top state
  have hcall : ∀ y', pei.Frame unit L arr zs y y' →
      CallInput unit L arr (topState zs) pos zs.length (pei.args unit zs) y' := by
    intro y' hframe
    refine callInput_action hL (hzs.topState_lt hzero) hlen hpos hact hnt fun env e hscope he => ?_
    rw [scopeAt, hsome] at hscope
    refine evals_shift hscope (by simp [hlen]) hle he (x := y) (by rwa [hargs]) ?_
    rwa [List.take_left' hlen]
  cases zs with
  | nil =>
    refine ⟨r, r, hcall r hframes, frame_pass hL hprep hzero hzs ?_, hr⟩
    cases o with
    | none => exact hr.2
    | some t' =>
      obtain ⟨w, rfl, -⟩ := hr
      intro s i w hred
      cases hred
  | cons z zs =>
    obtain ⟨y', hframe, hframes⟩ := hframes
    exact ⟨y', r, hcall y' hframe, hframes, hr⟩

/-- A reduction at the depth of the state is for the state that the driver goes back to. -/
lemma callInput_reduction {x : Terminal Sym} {rule m : ℕ}
    (hact : (pei.row (topState zs)).lookup (lookaheadAt arr pos) = some (.reduce x rule m))
    (hdepth : pei.parseDepth (topState zs) = m) :
    ∃ w, treeValue unit pei.evalExpr (.node x rule ((zs.take m).reverse.map Prod.snd)) = some w ∧
      CallInput unit L arr (topState zs) pos zs.length (pei.args unit zs)
        (.reduction x pos (zs.drop m).length w) := by
  obtain ⟨hnt, hle, rl, hrl, hbs⟩ := hprep.reduce_entry hact
  have hlen := hzs.length_args hprep
  have hargs : ((zs.take m).map (pei.stackValue unit)).reverse = pei.args unit zs := by
    rw [args, hdepth]
  refine ⟨rl.reducer (rl.bound fun k => (pei.args unit zs)[k]?), ?_, ?_⟩
  · rw [treeValue, hrl, hzs.treeValues, hargs]
  refine callInput_action hL (hzs.topState_lt hzero) hlen hpos hact hnt fun env e hscope he => ?_
  have hlen' : rl.bindings.length ≤ (scopeAt unit arr pos (pei.args unit zs)).length :=
    Nat.le_trans (by omega) (length_le_scopeAt ..)
  have hred : Evals unit L env e _ := evals_reduction hscope he hrl hlen'
  have hsd : (zs.length : ℤ) - pei.parseDepth (topState zs) = (zs.drop m).length := by
    have := hzs.parseDepth_le hprep
    rw [List.length_drop]
    omega
  -- a character in scope is not among the values of the rule
  have hbound : (rl.bound fun k => (scopeAt unit arr pos (pei.args unit zs))[k]?) =
      rl.bound fun k => (pei.args unit zs)[k]? := by
    refine ParseRule.bound_congr fun k hk => ?_
    rw [scopeAt]
    split
    · exact List.getElem?_append_left (by omega)
    · rfl
  rwa [hsd, hbound] at hred

/-- The driver reduces. -/
lemma callInput_reduce {x : Terminal Sym} {rule m j : ℕ} {o : Option (Tree (Terminal Sym))}
    (hact : (pei.row (topState zs)).lookup (lookaheadAt arr pos) = some (.reduce x rule m))
    (hdepth : pei.parseDepth (topState zs) = m)
    (hj : (pei.row (topState (zs.drop m))).lookup x = some (.goTo j))
    (ih : ∃ y r, CallInput unit L arr j pos ((zs.drop m).length + 1) (pei.args unit
        ((j, .node x rule ((zs.take m).reverse.map Prod.snd)) :: zs.drop m)) y ∧
      pei.Frames unit L arr ((j, .node x rule ((zs.take m).reverse.map Prod.snd)) :: zs.drop m)
        y r ∧ pei.Outcome unit r o) :
    ∃ y r, CallInput unit L arr (topState zs) pos zs.length (pei.args unit zs) y ∧
      pei.Frames unit L arr zs y r ∧ pei.Outcome unit r o := by
  obtain ⟨y, r, hin, hframes, hr⟩ := ih
  obtain ⟨w, hw, hcall⟩ := callInput_reduction hL hprep hzero hzs hpos hact hdepth
  obtain ⟨hnt, -, hone, hle⟩ := hprep.goto_entry hj
  have hbelow : pei.StackOk unit (zs.drop m) := hzs.drop m
  have hneeds : pei.needsOutputFunction (topState (zs.drop m)) = true :=
    Prepared.needsOutputFunction_of_goto hj
  have hargs := args_cons unit (z := (j, .node x rule ((zs.take m).reverse.map Prod.snd))) hone hle
    (hbelow.parseDepth_le hprep)
  rw [stackValue, hw, Option.getD_some] at hargs
  have hframes' : pei.Frames unit L arr ((j, .node x rule ((zs.take m).reverse.map Prod.snd)) ::
      zs.drop m) (.reduction x pos (zs.drop m).length w) r := by
    refine hframes.imp fun r hframe => ?_
    rw [Frame, if_pos hneeds] at hframe ⊢
    exact callOutput_goto hL (hbelow.topState_lt hzero) (hbelow.length_args hprep) hneeds hj hnt hle
      (by rwa [hargs]) hframe
  have hm : m ≤ zs.length := hdepth ▸ hzs.parseDepth_le hprep
  refine ⟨_, r, hcall, frames_drop hL hprep hzero hzs hm (fun hm => ?_) hframes', hr⟩
  cases zs with
  | nil => rfl
  | cons z zs =>
    obtain ⟨-, -, hz, -⟩ := hzs
    rw [topState] at hdepth
    omega

/-- The driver reduces a rule, but has nowhere to go. -/
lemma callInput_noGoto {x : Terminal Sym} {rule m : ℕ}
    (hact : (pei.row (topState zs)).lookup (lookaheadAt arr pos) = some (.reduce x rule m))
    (hdepth : pei.parseDepth (topState zs) = m)
    (hj : ∀ j, (pei.row (topState (zs.drop m))).lookup x ≠ some (.goTo j)) :
    ∃ y r, CallInput unit L arr (topState zs) pos zs.length (pei.args unit zs) y ∧
      pei.Frames unit L arr zs y r ∧ pei.Outcome unit r none := by
  obtain ⟨w, -, hcall⟩ := callInput_reduction hL hprep hzero hzs hpos hact hdepth
  have hm : m ≤ zs.length := hdepth ▸ hzs.parseDepth_le hprep
  have hpass : ∀ k, pei.Passes (zs.drop k) (.reduction x pos (zs.drop m).length w) := by
    intro k s i w' hred
    injection hred with hx _ hsd
    have hlen : (zs.drop m).length = (zs.drop k).length := by exact_mod_cast hsd
    -- of two ends of the stack that are equally long, both are the same
    have hdrop : zs.drop k = zs.drop m := by
      rw [List.length_drop, List.length_drop] at hlen
      rcases Nat.lt_or_ge k zs.length with hlt | hge
      · rw [show k = m by omega]
      · rw [List.drop_eq_nil_of_le hge, List.drop_eq_nil_of_le (by omega)]
    rw [hdrop, ← hx]
    exact hj
  refine ⟨_, _, hcall, frames_self hL hprep hzero hzs hpass, fun w => by simp, ?_⟩
  have hnil := hpass zs.length
  rwa [List.drop_length] at hnil

/-- The driver has no action. -/
lemma callInput_noAction (hact : (pei.row (topState zs)).lookup (lookaheadAt arr pos) = none ∨
    ∃ j, (pei.row (topState zs)).lookup (lookaheadAt arr pos) = some (.goTo j)) :
    ∃ y r, CallInput unit L arr (topState zs) pos zs.length (pei.args unit zs) y ∧
      pei.Frames unit L arr zs y r ∧ pei.Outcome unit r none := by
  have hpass : ∀ zs, pei.Passes zs (.failure : Val V) := fun zs s i w hred => by cases hred
  refine ⟨_, _, callInput_failure hL (hzs.topState_lt hzero) (hzs.length_args hprep) hpos ?_
    hprep.isNonTerminal_endOfFile, frames_self hL hprep hzero hzs fun m => hpass _,
    fun w => by simp, hpass []⟩
  exact hact.imp_right fun ⟨j, hj⟩ => (hprep.goto_entry hj).1

/-- The driver accepts. -/
lemma callInput_accept (hs : zs = z :: below)
    (hact : (pei.row (topState zs)).lookup (lookaheadAt arr pos) = some .accept) :
    ∃ y r, CallInput unit L arr (topState zs) pos zs.length (pei.args unit zs) y ∧
      pei.Frames unit L arr zs y r ∧ pei.Outcome unit r (some z.2) := by
  obtain ⟨heof, hdepth⟩ := hprep.accept_entry hact
  subst hs
  obtain ⟨w, hw⟩ := Option.isSome_iff_exists.mp hzs.1
  have hargs : pei.args unit (z :: below) = [w] := by
    simp [args, hdepth, stackValue, hw]
  have hpass : ∀ zs, pei.Passes zs (.success w) := fun zs s i w hred => by cases hred
  have hnt : pei.isNonTerminal (lookaheadAt arr pos) = false := by
    rw [heof]
    exact hprep.isNonTerminal_endOfFile
  refine ⟨.success w, .success w, ?_, frames_self hL hprep hzero hzs fun m => hpass _, w, rfl, hw⟩
  refine callInput_action hL (hzs.topState_lt hzero) (hzs.length_args hprep) hpos hact hnt
    fun env e hscope he => evals_accept hscope he ?_
  rw [scopeAt, hargs]
  split <;> rfl

end

/-- As long as the driver only reduces at the depth of its state, what it returns in the end is
what the call for its top state leads to. -/
lemma runs_agree (hL : pei.makeParserStates = .ok L) (hprep : Prepared pei root px)
    (hzero : 0 < pei.table.length) {c : Config Sym} {o : Option (Tree (Terminal Sym))}
    (hrun : Runs pei.table pei.AtDepth c o) (hzs : pei.StackOk unit c.stack)
    (hpos : pos ≤ arr.length) (hrest : c.rest = (arr.drop pos).map .character) :
    ∃ y r, CallInput unit L arr (topState c.stack) pos c.stack.length (pei.args unit c.stack) y ∧
      pei.Frames unit L arr c.stack y r ∧ pei.Outcome unit r o := by
  have haction : ∀ {c : Config Sym} {pos : ℕ}, c.rest = (arr.drop pos).map .character →
      action pei.table c = (pei.row (topState c.stack)).lookup (lookaheadAt arr pos) := by
    intro c pos hrest
    rw [action, entry_eq_lookup, lookahead_eq hrest]
    rfl
  induction hrun generalizing pos with
  | @accept c t hc h =>
    have hstep := stepped pei.table c
    rw [h] at hstep
    cases hstep with
    | @accept z zs hact hs =>
      rw [haction hrest] at hact
      exact callInput_accept hL hprep hzero hzs hpos hs hact
  | @reject c hc h =>
    have hstep := stepped pei.table c
    rw [h] at hstep
    cases hstep with
    | noGoto hact hj =>
      simp only [entry_eq_lookup] at hj
      exact callInput_noGoto hL hprep hzero hzs hpos (haction hrest ▸ hact) (hc _ _ _ hact) hj
    | noTree hact hs =>
      rw [haction hrest, hs] at hact
      have hdepth := (hprep.accept_entry hact).2
      rw [topState, hprep.parseDepth_zero] at hdepth
      cases hdepth
    | noAction hact =>
      rw [haction hrest] at hact
      exact callInput_noAction hL hprep hzero hzs hpos hact
  | @next c c' o hc h hrun ih =>
    have hstep := stepped pei.table c
    rw [h] at hstep
    cases hstep with
    | @shift j hact =>
      rw [haction hrest] at hact
      obtain ⟨-, hne, hj, hone, hle⟩ := hprep.shift_entry hact
      have hlt : pos < arr.length := lt_length_of_lookaheadAt hne
      refine callInput_shift hL hprep hzero hzs hpos hact rfl (ih ⟨rfl, hj, hone, hle, hzs⟩ hlt ?_)
      rw [hrest, List.drop_eq_getElem_cons hlt]
      rfl
    | @reduce x rule m j hact hj =>
      have hdepth : pei.parseDepth (topState c.stack) = m := hc _ _ _ hact
      rw [haction hrest] at hact
      rw [entry_eq_lookup] at hj
      obtain ⟨w, hw, -⟩ := callInput_reduction hL hprep hzero hzs hpos hact hdepth
      obtain ⟨-, hlt, hone, hle⟩ := hprep.goto_entry hj
      exact callInput_reduce hL hprep hzero hzs hpos hact hdepth hj
        (ih ⟨Option.isSome_iff_exists.mpr ⟨w, hw⟩, hlt, hone, hle, hzs.drop m⟩ hpos hrest)

end ParserEvalInfo

/-! ### Whole runs -/

section

variable [LinearOrder (Terminal Sym)] {unit : V} {L : LetRec V} {pei : ParserEvalInfo V}
  {px : Precedence Sym} {ps : Parser V} {n : ℕ} {arr : List UInt8}

lemma makeParser_eq_ok (h : makeParser n ps px = some (.ok (pei, L))) :
    ∃ root, ps.head?.map ParseRule.symbol = some root ∧ pei.rules = ps ∧ Prepared pei root px ∧
      hasRule pei.pdef.g (.user root) = true ∧ pei.makeParserStates = .ok L := by
  cases ps with
  | nil => cases h
  | cons rl ps =>
    simp only [makeParser, Option.bind_eq_bind, Option.bind_eq_some_iff, pure,
      Option.some.injEq] at h
    obtain ⟨x, hx, h⟩ := h
    obtain ⟨pei', rfl, h'⟩ := bind_eq_ok.mp h
    cases hstates : pei'.makeParserStates with
    | error f =>
      rw [hstates] at h'
      cases h'
    | ok L' =>
      rw [hstates] at h'
      cases h'
      obtain ⟨hprep, hrules⟩ := prepareEvalInfo_prepared hx
      refine ⟨rl.symbol, rfl, hrules, hprep, ?_, hstates⟩
      rw [hprep.grammar, hrules]
      exact hasRule_root

/-- What a parser yields is determined. -/
lemma yields_iff {r : Val V}
    (hr : Evals unit L (bindAll [.arr] [.arr arr]) (parserBody : ParseExpr V) r) {v : Option V} :
    Yields unit L arr v ↔ v = r.result := by
  constructor
  · rintro ⟨m, hm⟩
    rw [runParser, Option.map_eq_some_iff] at hm
    obtain ⟨r', hr', rfl⟩ := hm
    rw [Evals.unique hr ⟨m, hr'⟩]
  · rintro rfl
    obtain ⟨m, hm⟩ := hr
    exact ⟨m, by rw [runParser, hm]; rfl⟩

lemma evals_parserBody (unit : V) (h : makeParser n ps px = some (.ok (pei, L)))
    {o : Option (Tree (Terminal Sym))}
    (hrun : Runs pei.table pei.AtDepth (init (arr.map .character)) o) :
    ∃ r, Evals unit L (bindAll [.arr] [.arr arr]) (parserBody : ParseExpr V) r ∧
      pei.Outcome unit r o := by
  obtain ⟨root, -, -, hprep, hroot, hL⟩ := makeParser_eq_ok h
  have hzero : 0 < pei.table.length := by
    obtain ⟨is, his, -⟩ := hprep.automaton.start
    rw [lalrTable_length hprep.table]
    exact (List.getElem?_eq_some_iff.mp his).1
  obtain ⟨y, r, hin, hframe, hr⟩ := ParserEvalInfo.runs_agree hL hprep hzero hrun trivial
    (Nat.zero_le arr.length) rfl
  simp only [init, ParserEvalInfo.Frames, ParserEvalInfo.Frame, ParserEvalInfo.args, topState,
    hprep.needsOutputFunction_zero hroot, if_true, List.take_nil, List.map_nil, List.reverse_nil]
    at hin hframe
  obtain ⟨ps₀, b₀, hlookup₀, hin⟩ := hin
  obtain ⟨ps₁, b₁, hlookup₁, hout⟩ := hframe
  refine ⟨r, Evals.fncall (.cons (.var rfl) (.cons (.int 0) (.cons ?_ .nil))) hlookup₁ hout, hr⟩
  exact Evals.fncall (.cons (.var rfl) (.cons (.size 0) (.cons (.int 0) .nil))) hlookup₀ hin

/-- The generated parser agrees with the driver on every input on which the driver comes to an end,
having reduced rules only in states whose depth is their length. -/
theorem makeParser_agrees (h : makeParser n ps px = some (.ok (pei, L)))
    {o : Option (Tree (Terminal Sym))}
    (hrun : Runs pei.table pei.AtDepth (init (arr.map .character)) o) :
    pei.Agrees unit L arr := by
  obtain ⟨r, heval, hr⟩ := evals_parserBody unit h hrun
  have hrun' : Runs pei.table (fun _ => True) (init (arr.map .character)) o :=
    hrun.mono fun _ _ => trivial
  simp only [ParserEvalInfo.Agrees, yields_iff heval]
  cases o with
  | some t =>
    obtain ⟨w, rfl, hw⟩ := hr
    have haccepts : ∀ t', Accepts pei.table (arr.map .character) t' ↔ t' = t :=
      fun t' => ⟨fun h => Option.some.inj (h.unique hrun'), fun h => h ▸ hrun'⟩
    simp [Val.result, haccepts, hw, eq_comm]
  | none =>
    have hnone : ∀ t', ¬ Accepts pei.table (arr.map .character) t' := fun t' h => by
      cases h.unique hrun'
    obtain ⟨hne, -⟩ := hr
    have hfail : r.result = none := by
      cases r with
      | success w => exact absurd rfl (hne w)
      | _ => rfl
    simp [hnone, hfail]

end

/-! ### Two definitions -/

section

/-- One of the orders that the symbols may be in. -/
local instance symbolOrder : LinearOrder (Terminal Sym) :=
  LinearOrder.lift' (fun
    | .privstart => []
    | .endOfFile => [0]
    | .user (.character c) => [1, c.toNat]
    | .user (.symbol nm) => 2 :: nm.map UInt8.toNat : Terminal Sym → List ℕ) (by
      intro t u htu
      rcases t with (c | nm) | _ | _ <;> rcases u with (c' | nm') | _ | _ <;>
        simp_all [UInt8.toNat_inj, List.map_inj_right])

/-- `S := 'a' b:B { b+1 }`, where `B` has one rule, whose value is 7. -/
def exampleRules (bs : List (Bytes × Sym)) : Parser ℕ :=
  [⟨.symbol [83], [([95], .character 97), ([98], .symbol [66])], fun vs => (vs [98]).getD 0 + 1⟩,
    ⟨.symbol [66], bs, fun _ => 7⟩]

lemma generated_nonempty : (match makeParser 20 (exampleRules [([95], .character 98)]) [] with
    | some (.ok (pei, _)) => (run pei.table pei.AtDepth 10 (init [.character 97, .character 98])).isSome
    | _ => false) = true := by
  decide +kernel

/-- Where `B` is the character `b`, `ab` is parsed as by the driver. -/
theorem makeParser_agrees_nonempty : ∃ pei L,
    makeParser 20 (exampleRules [([95], .character 98)]) [] = some (.ok (pei, L)) ∧
      pei.Agrees 0 L [97, 98] := by
  have hrun := generated_nonempty
  split at hrun
  · rename_i pei L h
    obtain ⟨o, ho⟩ := Option.isSome_iff_exists.mp hrun
    exact ⟨pei, L, h, makeParser_agrees h (runs_of_run ho)⟩
  · cases hrun

lemma generated_empty : (match makeParser 20 (exampleRules []) [] with
    | some (.ok (pei, L)) =>
      decide ((run pei.table (fun _ => True) 10 (init [.character 97])).join.isSome) &&
        (runParser 0 L 20 [97] == some none)
    | _ => false) = true := by
  decide +kernel

/-- Where `B` is empty, `a` is not parsed: `B` is reduced in a state of depth 1. -/
theorem not_makeParser_agrees : ∃ pei L,
    makeParser 20 (exampleRules []) [] = some (.ok (pei, L)) ∧ ¬ pei.Agrees 0 L [97] := by
  have hrun := generated_empty
  split at hrun
  · rename_i pei L h
    obtain ⟨haccept, hyield⟩ := Bool.and_eq_true_iff.mp hrun
    obtain ⟨t, ht⟩ := Option.isSome_iff_exists.mp (of_decide_eq_true haccept)
    refine ⟨pei, L, h, fun hagrees => ?_⟩
    exact hagrees.2.mp ⟨20, beq_iff_eq.mp hyield⟩ ⟨t, runs_of_run (Option.join_eq_some_iff.mp ht)⟩
  · cases hrun

end

end Hobbes.Parse
