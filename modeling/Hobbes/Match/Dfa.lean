import Mathlib.Data.List.AList
import Hobbes.Lang.Expr
import Hobbes.Match.Search

/-!
# Primitive matches

The states of a match, the function that a match against literals is compiled to, and the table that it is
interpreted with. A state is known by its number, and an expression by the pointer to it. Where the source
throws, reads out of range or does not return, there is no result. Indices are numbers, whether the source
has them as `int`, `long` or `size_t`.
-/

namespace Hobbes.Match

open Core Lang

deriving instance DecidableEq for Primitive

abbrev Long := BitVec 64

inductive MState (E : Type) where
  | loadVars (next : ℕ)
  | switchVal (var : Bytes) (jumps : List (Primitive × ℕ)) (dflt : Option ℕ)
  | switchVariant (var : Bytes) (jumps : List (Bytes × ℕ)) (dflt : Option ℕ)
  | finishExpr (e : E)

/-- The index of an expression is that of the one state that finishes with it. -/
structure MDFA (E : Type) where
  states : List (MState E)
  primFArgs : ℕ → List (Bytes × MonoType)
  exprIdxs : E → Option ℕ
  finishExpr_of_exprIdxs : ∀ e i, exprIdxs e = some i → states[i]? = some (.finishExpr e)

namespace MDFA

variable {E : Type} (dfa : MDFA E)

/-! ### Compiled matches -/

/-- The expression of the finish state that is reached. -/
def walk (args : Bytes → Option Long) : ℕ → ℕ → Option E
  | 0, _ => none
  | fuel + 1, s =>
    match dfa.states[s]? with
    | some (.switchVal var jumps (some dflt)) => do
      let v ← args var
      walk args fuel ((jumps.lookup (.long v)).getD dflt)
    | some (.finishExpr e) => some e
    | _ => none

/-- What the function returns that `makePrimDFASF` emits, with a block for each state. -/
def runPrimDFA (args : Bytes → Option Long) (fuel s : ℕ) : Option ℕ :=
  (dfa.walk args fuel s).bind dfa.exprIdxs

/-! ### Interpreted matches -/

end MDFA

inductive IDFATransition where
  | done (row : ℕ)
  | step (s : ℕ)

structure IDFAState where
  reads : ℕ
  transitions : List (Long × IDFATransition)
  dflt : IDFATransition

/-- `td` of `runLongDFA` -/
def IDFAState.transition (st : IDFAState) (v : Long) : Option IDFATransition := do
  let i ← bsearch (Ops.signed 64) st.transitions Prod.fst v
  if i = st.transitions.length then some st.dflt else st.transitions[i]?.map Prod.snd

def runLongDFA (dfa : List IDFAState) : ℕ → ℕ → List Long → Option ℕ
  | 0, _, _ => none
  | fuel + 1, s, vs => do
    let st ← dfa[s]?
    let v ← vs[st.reads]?
    match ← st.transition v with
    | .done x => some x
    | .step ns => runLongDFA dfa fuel ns vs

abbrev ArgPos := AList fun _ : Bytes => ℕ

/-- A `std::map` with keys of type `long`. -/
abbrev SortedJumps := Std.TreeMap Long IDFATransition (compareOn BitVec.toInt)

/-- The states that are copied or are being copied, and the rows that are written. -/
structure Copy where
  dones : List ℕ
  dfaStates : List (Option IDFAState)

namespace MDFA

variable {E : Type} (dfa : MDFA E)

/-- The local number of a state is its place in the list. -/
def mapStatesFrom : ℕ → ℕ → List ℕ → Option (List ℕ)
  | 0, _, _ => none
  | fuel + 1, state, localstate =>
    if state ∈ localstate then some localstate
    else
      match dfa.states[state]? with
      | some (.switchVal _ jumps dflt) => do
        let m ← jumps.foldlM (fun m jmp => mapStatesFrom fuel jmp.2 m) (localstate ++ [state])
        let d ← dflt
        mapStatesFrom fuel d m
      | some (.finishExpr _) => some localstate
      | _ => none

def localState (localstate : List ℕ) (state : ℕ) : Option ℕ :=
  if state ∈ localstate then some (localstate.idxOf state) else none

/-- `copy` is the recursive call. -/
def transitionDef (localstate : List ℕ) (copy : ℕ → Copy → Option Copy) (s : ℕ) (c : Copy) :
    Option (IDFATransition × Copy) :=
  match dfa.states[s]? with
  | some (.finishExpr e) => (dfa.exprIdxs e).map fun i => (.done i, c)
  | some _ => do
    let nextState ← localState localstate s
    let c ← copy s c
    some (.step nextState, c)
  | none => none

def addTransition (localstate : List ℕ) (copy : ℕ → Copy → Option Copy) (m : SortedJumps × Copy)
    (jmp : Primitive × ℕ) : Option (SortedJumps × Copy) :=
  match jmp.1 with
  | .long lv => do
    let (t, c) ← dfa.transitionDef localstate copy jmp.2 m.2
    some (m.1.insert lv t, c)
  | _ => none

def transitions (localstate : List ℕ) (copy : ℕ → Copy → Option Copy) (jmps : List (Primitive × ℕ))
    (c : Copy) : Option (List (Long × IDFATransition) × Copy) := do
  let (ssvj, c) ← jmps.foldlM (dfa.addTransition localstate copy) (∅, c)
  some (ssvj.toList, c)

def copyStateDef (argpos : ArgPos) (localstate : List ℕ) : ℕ → ℕ → Copy → Option Copy
  | 0, _, _ => none
  | fuel + 1, state, c =>
    if state ∈ c.dones then some c
    else
      match dfa.states[state]? with
      | some (.switchVal var jumps dflt) => do
        let copy := copyStateDef argpos localstate fuel
        let statei ← localState localstate state
        let reads ← argpos.lookup var
        let (ts, c) ← dfa.transitions localstate copy jumps { c with dones := c.dones ++ [state] }
        let d ← dflt
        let (td, c) ← dfa.transitionDef localstate copy d c
        some { c with dfaStates := c.dfaStates.set statei (some ⟨reads, ts, td⟩) }
      | _ => none

/-- A name that comes twice has its last position. -/
def argPos (args : List (Bytes × MonoType)) : ArgPos :=
  args.zipIdx.foldl (fun argpos arg => argpos.insert arg.1.1 arg.2) ∅

end MDFA

structure InterpretedFn where
  vnames : List Bytes
  argpos : ArgPos
  dfaStates : List IDFAState

/-- `runvargs[pos] = arg` -/
def assign (vars : List (Bytes × Long)) (runvargs : List Long) (arg : (_ : Bytes) × ℕ) :
    Option (List Long) := do
  let v ← vars.lookup arg.1
  if arg.2 < runvargs.length then some (runvargs.set arg.2 v) else none

/-- The argument vector has what the calls before have left in it. -/
def InterpretedFn.call (f : InterpretedFn) (runvargs vs : List Long) (fuel : ℕ) : Option ℕ := do
  let runvargs ← f.argpos.entries.foldlM (assign (f.vnames.zip vs)) runvargs
  runLongDFA f.dfaStates fuel 0 runvargs

inductive PrimMatchFn where
  | compiled (params : List Bytes) (state : ℕ)
  | interpreted (f : InterpretedFn)

/-- A `switch` on the row that a function returns. -/
structure PrimMatchExpr (E : Type) where
  fn : PrimMatchFn
  args : List Bytes
  bindings : List (ℕ × E)
  dflt : E

/-- The result expression for a row. -/
def PrimMatchExpr.select {E : Type} (m : PrimMatchExpr E) (row : ℕ) : E :=
  (m.bindings.lookup row).getD m.dflt

namespace MDFA

variable {E : Type} (dfa : MDFA E)

/-- Every entry of the table has to be written. -/
def makeInterpretedPrimMatchFunction (fuel state : ℕ) : Option InterpretedFn := do
  let args := dfa.primFArgs state
  let localstate ← dfa.mapStatesFrom fuel state []
  let c ← dfa.copyStateDef (argPos args) localstate fuel state
    ⟨[], List.replicate localstate.length none⟩
  let dfaStates ← c.dfaStates.mapM id
  some ⟨args.map Prod.fst, argPos args, dfaStates⟩

/-- `"long"` -/
def isLong : MonoType → Bool
  | .prim nm _ => nm == [108, 111, 110, 103]
  | _ => false

def canMakeInterpretedPrimMatchFunction (state : ℕ) : Bool :=
  (dfa.primFArgs state).all fun arg => isLong arg.2

/-- The rows that can be reached, each with its expression. -/
def reachableRowExprs : ℕ → ℕ → Std.TreeMap ℕ E → Option (Std.TreeMap ℕ E)
  | 0, _, _ => none
  | fuel + 1, s, results =>
    match dfa.states[s]? with
    | some (.switchVal _ jumps dflt) => do
      let results ← dflt.elim (some results) fun d => reachableRowExprs fuel d results
      jumps.foldlM (fun results jmp => reachableRowExprs fuel jmp.2 results) results
    | some (.finishExpr e) => (dfa.exprIdxs e).map fun i => results.insert i e
    | some (.loadVars next) => reachableRowExprs fuel next results
    | some (.switchVariant _ jumps dflt) => do
      let results ← dflt.elim (some results) fun d => reachableRowExprs fuel d results
      jumps.foldlM (fun results jmp => reachableRowExprs fuel jmp.2 results) results
    | none => none

def findRowResults (fuel s : ℕ) : Option (List (ℕ × E)) :=
  (dfa.reachableRowExprs fuel s ∅).map Std.TreeMap.toList

def liftPrimMatchExpr (buildInterpretedMatches : Bool) (fuel state : ℕ) :
    Option (PrimMatchExpr E) := do
  let params := (dfa.primFArgs state).map Prod.fst
  let fn ←
    if buildInterpretedMatches && dfa.canMakeInterpretedPrimMatchFunction state then
      (dfa.makeInterpretedPrimMatchFunction fuel state).map PrimMatchFn.interpreted
    else some (.compiled params state)
  let bs ← dfa.findRowResults fuel state
  let b ← bs.head?
  some ⟨fn, params, bs, b.2⟩

/-- The row that a match returns for the variables of its arguments. -/
def callPrimMatch (m : PrimMatchExpr E) (env : Bytes → Long) (runvargs : List Long) (fuel : ℕ) :
    Option ℕ :=
  match m.fn with
  | .compiled params state =>
    dfa.runPrimDFA (fun var => (params.zip (m.args.map env)).lookup var) fuel state
  | .interpreted f => f.call runvargs (m.args.map env) fuel

end MDFA

end Hobbes.Match
