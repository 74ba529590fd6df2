import Hobbes.Core.Codec
import Hobbes.Parse.Driver

/-!
# Generated parsers

`makeParser` turns a parser definition into a `letrec` of two functions for a state: the input
function looks at the next character, and the output function takes what a call has reduced to. The
expressions are of the few forms that are generated; the names that are generated are kept apart
from the names of the user. A reducer is a function of the values of the names that its rule binds.
-/

namespace Hobbes.Parse

open Core

inductive Sym where
  | character (x : UInt8)
  /-- a symbol is known by its name -/
  | symbol (sname : Bytes)
deriving DecidableEq

structure ParseRule (V : Type) where
  symbol : Sym
  bindings : List (Bytes × Sym)
  reducer : (Bytes → Option V) → V

abbrev Parser (V : Type) := List (ParseRule V)

/-! ### Expressions -/

/-- The names `.arr`, `.i`, ..., `.v0`, `.v1`, ... of variables. -/
inductive Var where
  | arr
  | i
  | j
  | sd
  | sdp
  | x
  | v (k : ℕ)
deriving DecidableEq

/-- The names `.s0i`, `.s0o`, ... of functions. -/
inductive StateFn where
  | input (i : ℕ)
  | output (i : ℕ)
deriving DecidableEq

inductive ParseExpr (V : Type) where
  | var (y : Var)
  | unit
  | size (k : ℕ)
  | int (k : ℤ)
  | ladd (a b : ParseExpr V)
  | iadd (a b : ParseExpr V)
  | isub (a b : ParseExpr V)
  | fncall (f : StateFn) (args : List (ParseExpr V))
  | letIn (y : Var) (e b : ParseExpr V)
  /-- `if (leq(.i, size(.arr))) then a else b` -/
  | ifEnd (a b : ParseExpr V)
  /-- `match element(.arr, .i) with | c0 -> e0 ... | _ -> e` -/
  | matchElement (rows : List (UInt8 × ParseExpr V)) (e : ParseExpr V)
  /-- `match .x with | |S=(.i, .sdp, .vk)| where ieq(.sd, .sdp) -> e ... | z -> z` -/
  | matchResult (k : ℕ) (rows : List (Terminal Sym × ParseExpr V))
  | failure
  | success (e : ParseExpr V)
  /-- `|S=(f0, f1, f2)|` -/
  | reduction (s : Terminal Sym) (f₀ f₁ f₂ : ParseExpr V)
  /-- the reducer of a rule, where `.vk` stands for the name bound at `k` -/
  | reducer (r : ParseRule V)

inductive Val (V : Type) where
  | arr (a : List UInt8)
  | size (k : ℕ)
  | int (k : ℤ)
  | value (v : V)
  | failure
  | success (v : V)
  | reduction (s : Terminal Sym) (i : ℕ) (sd : ℤ) (v : V)

abbrev Env (V : Type) := Var → Option (Val V)

abbrev LetRec (V : Type) := List (StateFn × List Var × ParseExpr V)

variable {V : Type}

def bindAll (ps : List Var) (vs : List (Val V)) : Env V := fun y => (ps.zip vs).lookup y

def Env.set (env : Env V) (y : Var) (v : Val V) : Env V := fun y' => if y' = y then some v else env y'

/-- The value that an environment has for `.vk`. -/
def Env.valueAt (env : Env V) (k : ℕ) : Option V :=
  match env (.v k) with
  | some (.value v) => some v
  | _ => none

/-- The values of the names that a rule binds; where a name is bound twice the last one counts. -/
def ParseRule.bound (r : ParseRule V) (vs : ℕ → Option V) : Bytes → Option V := fun nm =>
  ((r.bindings.zipIdx.reverse.find? fun b => b.1.1 ≠ [95] ∧ b.1.1 = nm).map Prod.snd).bind vs

/-- The value of an expression, where `unit` is the value of type unit. There is none when `n` is
too small. -/
@[simp] def eval [LinearOrder (Terminal Sym)] (unit : V) (L : LetRec V) : ℕ → Env V → ParseExpr V → Option (Val V)
  | 0, _, _ => none
  | _ + 1, env, .var y => env y
  | _ + 1, _, .unit => some (.value unit)
  | _ + 1, _, .size k => some (.size k)
  | _ + 1, _, .int k => some (.int k)
  | n + 1, env, .ladd a b =>
    match eval unit L n env a, eval unit L n env b with
    | some (.size k), some (.size l) => some (.size (k + l))
    | _, _ => none
  | n + 1, env, .iadd a b =>
    match eval unit L n env a, eval unit L n env b with
    | some (.int k), some (.int l) => some (.int (k + l))
    | _, _ => none
  | n + 1, env, .isub a b =>
    match eval unit L n env a, eval unit L n env b with
    | some (.int k), some (.int l) => some (.int (k - l))
    | _, _ => none
  | n + 1, env, .fncall f args =>
    match args.mapM (eval unit L n env), L.lookup f with
    | some vs, some (ps, body) => eval unit L n (bindAll ps vs) body
    | _, _ => none
  | n + 1, env, .letIn y e b =>
    match eval unit L n env e with
    | some v => eval unit L n (env.set y v) b
    | none => none
  | n + 1, env, .ifEnd a b =>
    match env .arr, env .i with
    | some (.arr cs), some (.size k) => eval unit L n env (if k = cs.length then a else b)
    | _, _ => none
  | n + 1, env, .matchElement rows e =>
    match env .arr, env .i with
    | some (.arr cs), some (.size k) =>
      match cs[k]? with
      | some c => eval unit L n env ((rows.lookup c).getD e)
      | none => none
    | _, _ => none
  | n + 1, env, .matchResult k rows =>
    match env .x, env .sd with
    | some (.reduction s i sdp v), some (.int sd) =>
      match rows.find? fun row => row.1 = s ∧ sd = sdp with
      | some row => eval unit L n
          (((env.set .i (.size i)).set .sdp (.int sdp)).set (.v k) (.value v)) row.2
      | none => some (.reduction s i sdp v)
    | r, _ => r
  | _ + 1, _, .failure => some .failure
  | n + 1, env, .success e =>
    match eval unit L n env e with
    | some (.value v) => some (.success v)
    | _ => none
  | n + 1, env, .reduction s f₀ f₁ f₂ =>
    match eval unit L n env f₀, eval unit L n env f₁, eval unit L n env f₂ with
    | some (.size i), some (.int sd), some (.value v) => some (.reduction s i sd v)
    | _, _, _ => none
  | _ + 1, env, .reducer r => some (.value (r.reducer (r.bound env.valueAt)))

/-! ### The generator -/

variable [LinearOrder (Terminal Sym)]

def extractGrammarRule (bs : List (Bytes × Sym)) : Rule Sym := bs.map Prod.snd

/-- `g[x].push_back(r)`. -/
def pushRule (g : Grammar Sym) (x : Sym) (r : Rule Sym) : Grammar Sym :=
  if hasRule g x then g.map fun y => if y.1 = x then (x, y.2 ++ [r]) else y else g ++ [(x, [r])]

def extractGrammar (p : Parser V) : Grammar Sym :=
  p.foldl (fun g r => pushRule g r.symbol (extractGrammarRule r.bindings)) []

structure ParserEvalInfo (V : Type) where
  rules : Parser V
  pdef : ParserDef Sym
  table : LrTable Sym

/-- What the generator throws. -/
inductive MakeFailure where
  | table (f : TableFailure Sym)
  | emptyDefinition
  | noReduceExpr
  | nonGoto
  | unexpectedAction
  | abstractSymbol

def prepareEvalInfo (n : ℕ) (p : Parser V) (root : Sym) (prec : Precedence Sym) :
    Option (Except MakeFailure (ParserEvalInfo V)) := do
  let pdef ← lalr1parser n (extractGrammar p) root
  return match lalrTable pdef prec with
    | .ok table => .ok { rules := p, pdef, table }
    | .error f => .error (.table f)

namespace ParserEvalInfo

variable (pei : ParserEvalInfo V)

/-- The rule that a symbol is reduced by. -/
def evalExpr (s : Terminal Sym) (rule : ℕ) : Option (ParseRule V) :=
  (pei.rules.filter fun r => s = .user r.symbol)[rule]?

def isNonTerminal (t : Terminal Sym) : Bool := hasRule pei.pdef.g t

def row (i : ℕ) : LrState Sym := pei.table[i]?.getD []

def needsOutputFunction (i : ℕ) : Bool := (pei.row i).any fun td =>
  match td.2 with
  | .goTo _ => true
  | _ => false

def varNames (n : ℕ) : List Var := (List.range n).map .v

/-- The largest read position of an item of the state. It throws for a state without items, but
there is none. -/
def parseDepth (i : ℕ) : ℕ := (((pei.pdef.states[i]?).getD []).map Item.p).foldl max 0

def shiftVarNames (fromS toS : ℕ) : List Var :=
  let m := pei.parseDepth fromS + 1
  let n := pei.parseDepth toS
  (List.range n).map fun i => .v ((m - n) + i)

def vars (ys : List Var) : List (ParseExpr V) := ys.map .var

/-- `.sio(.arr, .sd, .v0, ..., e)`. -/
def callOutput (i : ℕ) (e : ParseExpr V) : ParseExpr V :=
  .fncall (.output i) (vars (.arr :: .sd :: varNames (pei.parseDepth i)) ++ [e])

def makeReduction (i : ℕ) (sym : Terminal Sym) (rule : ℕ) : Except MakeFailure (ParseExpr V) :=
  match pei.evalExpr sym rule with
  | some r => .ok (.reduction sym (.var .i) (.isub (.var .sd) (.int (pei.parseDepth i))) (.reducer r))
  | none => .error .noReduceExpr

def doAction (i : ℕ) : Action Sym → Except MakeFailure (ParseExpr V)
  | .shift s =>
    let shiftExpr : ParseExpr V :=
      .letIn .j (.ladd (.var .i) (.size 1))
        (.letIn .sdp (.iadd (.var .sd) (.int 1))
          (.fncall (.input s) (vars (.arr :: .j :: .sdp :: pei.shiftVarNames i s))))
    .ok (if pei.needsOutputFunction i then pei.callOutput i shiftExpr else shiftExpr)
  | .reduce sym rule _ => pei.makeReduction i sym rule
  | .accept => .ok (.success (.var (.v 0)))
  | .goTo _ => .error .unexpectedAction

/-- The row of an output function for a symbol. -/
def outputRow (i : ℕ) (sp : Terminal Sym × Action Sym) :
    Except MakeFailure (Terminal Sym × ParseExpr V) :=
  match sp.2 with
  | .goTo j => .ok (sp.1, pei.callOutput i (.fncall (.input j)
      (vars [.arr, .i] ++ .iadd (.var .sd) (.int 1) :: vars (pei.shiftVarNames i j))))
  | _ => .error .nonGoto

def makeOutputParserState (i : ℕ) : Except MakeFailure (List Var × ParseExpr V) := do
  let prs ← ((pei.row i).filter fun sp => pei.isNonTerminal sp.1).mapM (pei.outputRow i)
  return (.arr :: .sd :: varNames (pei.parseDepth i) ++ [.x],
    .matchResult (pei.parseDepth i) prs)

/-- `matchPattern`, which throws for a symbol. -/
def matchPattern : Terminal Sym → Except MakeFailure UInt8
  | .user (.character c) => .ok c
  | _ => .error .abstractSymbol

/-- The row of an input function for a terminal. -/
def inputRow (i : ℕ) (sp : Terminal Sym × Action Sym) :
    Except MakeFailure (UInt8 × ParseExpr V) := do
  let c ← matchPattern sp.1
  let e ← pei.doAction i sp.2
  return (c, .letIn (.v (pei.parseDepth i)) .unit e)

/-- What is generated for the end of the input. -/
def eofAct (i : ℕ) : Except MakeFailure (ParseExpr V) :=
  match (pei.row i).lookup .endOfFile with
  | some act => pei.doAction i act
  | none => .ok .failure

def makeInputParserState (i : ℕ) : Except MakeFailure (List Var × ParseExpr V) := do
  let prs ← ((pei.row i).filter fun sp => sp.1 ≠ .endOfFile ∧ !pei.isNonTerminal sp.1).mapM
    (pei.inputRow i)
  let eofAct ← pei.eofAct i
  return (.arr :: .i :: .sd :: varNames (pei.parseDepth i),
    .ifEnd eofAct (.matchElement prs .failure))

/-- The functions of one state. -/
def makeParserState (i : ℕ) : Except MakeFailure (LetRec V) := do
  let si ← pei.makeInputParserState i
  if pei.needsOutputFunction i then do
    let so ← pei.makeOutputParserState i
    return [(.output i, so), (.input i, si)]
  else return [(.input i, si)]

def makeParserStates : Except MakeFailure (LetRec V) := do
  let bs ← (List.range pei.table.length).mapM pei.makeParserState
  return bs.flatten

end ParserEvalInfo

/-- The parser of a definition: the `letrec` of its states. -/
def makeParser (n : ℕ) (p : Parser V) (prec : Precedence Sym) :
    Option (Except MakeFailure (ParserEvalInfo V × LetRec V)) :=
  match p with
  | [] => some (.error .emptyDefinition)
  | r :: _ => do
    let pei ← prepareEvalInfo n p r.symbol prec
    return pei.bind fun pei => pei.makeParserStates.map fun L => (pei, L)

/-- `.s0o(.arr, 0, .s0i(.arr, 0, 0))`. -/
def parserBody : ParseExpr V :=
  .fncall (.output 0) [.var .arr, .int 0, .fncall (.input 0) [.var .arr, .size 0, .int 0]]

/-- A parser returns `.f1` with a value, or `.f0`. -/
def Val.result : Val V → Option V
  | .success v => some v
  | _ => none

/-- Run a generated parser. -/
def runParser (unit : V) (L : LetRec V) (n : ℕ) (arr : List UInt8) : Option (Option V) :=
  (eval unit L n (bindAll [.arr] [.arr arr]) parserBody).map Val.result

/-- The parser yields `r` on `arr`. -/
def Yields (unit : V) (L : LetRec V) (arr : List UInt8) (r : Option V) : Prop :=
  ∃ n, runParser unit L n arr = some r

/-- The value of a tree, from the bottom up. -/
def treeValue (unit : V) (rules : Terminal Sym → ℕ → Option (ParseRule V)) :
    Tree (Terminal Sym) → Option V
  | .leaf _ => some unit
  | .node x r ts =>
    match rules x r, treeValues ts with
    | some rl, some vs => some (rl.reducer (rl.bound fun k => vs[k]?))
    | _, _ => none
where
  treeValues : List (Tree (Terminal Sym)) → Option (List V)
  | [] => some []
  | t :: ts =>
    match treeValue unit rules t, treeValues ts with
    | some v, some vs => some (v :: vs)
    | _, _ => none

end Hobbes.Parse
