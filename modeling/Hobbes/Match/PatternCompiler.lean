import Hobbes.Match.PatternTable
import Mathlib.Data.List.Sort

/-!
# Compiling pattern tables

A table is taken apart column by column. What is left of it for a value of the column is made a state, unless there
is a state for such a table already. Which states refer to a state, and which are the roots of primitive matches, is
left out. The tables that were found to have a state are kept with those that the states were made for.
-/

namespace Hobbes.Match.Table

open Core Lang

variable {G E : Type}

/-! ### States -/

/-- The expressions that are loaded. What is made anew each time has a pointer of its own. -/
inductive Load (G : Type) where
  | element (x : Name) (i : ℕ)
  | field (x : Name) (f : Bytes)
  | openArray (x : Name) (ptr : ℕ)
  | size (x : Name)
  | packCArrLong (x : Name) (i ptr : ℕ)
  | guard (g : G)
deriving DecidableEq

inductive MState (G E : Type) where
  | loadVars (ds : List (Name × Load G)) (next : ℕ)
  | switchVal (var : Name) (jmps : List (Primitive × ℕ)) (dflt : ℕ)
  | switchVariant (var : Name) (jmps : List (Bytes × ℕ)) (dflt : Option ℕ)
  | finishExpr (exp : E)
deriving DecidableEq

structure MDFA (G E : Type) where
  states : List (MState G E)
  tableCfgStates : List (PatternRows G E × ℕ)
  exprs : ℕ
  found : List (PatternRows G E × PatternRows G E)

inductive Failure where
  | inexhaustive
  | inexhaustiveAfterGuard
  | invalidTable
  | wildcardColumn
  | notAString
  | outOfFuel

abbrev Make (G E : Type) := StateT (MDFA G E) (Except Failure)

/-- A state is only made once. -/
def addState [DecidableEq G] [DecidableEq E] (st : MState G E) : Make G E ℕ := fun dfa =>
  if st ∈ dfa.states then .ok (dfa.states.idxOf st, dfa)
  else .ok (dfa.states.length, { dfa with states := dfa.states ++ [st] })

def stateAt (s : ℕ) : Make G E (MState G E) := fun dfa =>
  match dfa.states[s]? with
  | some st => .ok (st, dfa)
  | none => .error .invalidTable

/-- A pointer to a new expression. -/
def newExpr : Make G E ℕ := fun dfa => .ok (dfa.exprs, { dfa with exprs := dfa.exprs + 1 })

/-- `operator==` of rows. -/
def PatternRow.same [DecidableEq G] [DecidableEq E] (r r' : PatternRow G E) : Bool :=
  r.guard = r'.guard && r.result = r'.result && Pattern.sameAll r.patterns r'.patterns

def sameRows [DecidableEq G] [DecidableEq E] : PatternRows G E → PatternRows G E → Bool
  | [], [] => true
  | r :: ps, r' :: ps' => r.same r' && sameRows ps ps'
  | _, _ => false

/-- The state of a table that is the same. -/
def findTable [DecidableEq G] [DecidableEq E] (ps : PatternRows G E) : Make G E (Option ℕ) := fun dfa =>
  match dfa.tableCfgStates.find? fun e => sameRows e.1 ps with
  | some e => .ok (some e.2, { dfa with found := (ps, e.1) :: dfa.found })
  | none => .ok (none, dfa)

def remember (ps : PatternRows G E) (s : ℕ) : Make G E Unit := fun dfa =>
  .ok ((), { dfa with tableCfgStates := (ps, s) :: dfa.tableCfgStates })

/-! ### Switches -/

inductive PrimType where
  | unit
  | bool
  | char
  | byte
  | short
  | int
  | long
  | float
  | double
deriving DecidableEq

def primType : Primitive → PrimType
  | .unit => .unit
  | .bool _ => .bool
  | .char _ => .char
  | .byte _ => .byte
  | .short _ => .short
  | .int _ => .int
  | .long _ => .long
  | .float _ => .float
  | .double _ => .double

/-- The constants of a type in order, those of floating point in the order of their bits. -/
def primOrder : Primitive → ℤ
  | .unit => 0
  | .bool x => x.toInt
  | .char x => x.toInt
  | .byte x => x.toNat
  | .short x => x.toInt
  | .int x => x.toInt
  | .long x => x.toInt
  | .float x => x.toNat
  | .double x => x.toNat

/-- Make a switch on a constant, if it covers all values. -/
def makeSwitch (switchVar : Name) (jmps : List (Primitive × ℕ)) (defState : Option ℕ) : Make G E (MState G E) :=
  match defState, jmps with
  | some d, [] => stateAt d
  | some d, j :: js => if primType j.1 = .unit then stateAt j.2 else return .switchVal switchVar (j :: js) d
  | none, [] => throw .inexhaustive
  | none, j :: js =>
    match primType j.1, js with
    | .bool, [j'] => return .switchVal switchVar [j] j'.2
    | .unit, _ => stateAt j.2
    | ty, _ =>
      if (ty = .char ∨ ty = .byte) ∧ js.length + 1 = 256 then
        match (j :: js).getLast? with
        | some l => return .switchVal switchVar (j :: js).dropLast l.2
        | none => throw .inexhaustive
      else throw .inexhaustive

/-! ### Tables -/

def width (ps : PatternRows G E) : ℕ :=
  match ps with
  | [] => 0
  | r :: _ => r.patterns.length

def usedColumns (ps : PatternRows G E) : List ℕ :=
  (List.range (width ps)).filter fun c => ps.any fun r => !r.patterns[c]?.all Pattern.isAny

def dropUnusedColumns (ps : PatternRows G E) : PatternRows G E :=
  if (usedColumns ps).length = width ps then ps
  else ps.map fun r => { r with patterns := (usedColumns ps).filterMap (r.patterns[·]?) }

def copyRowWithoutColumn (r : PatternRow G E) (c : ℕ) : PatternRow G E :=
  { r with patterns := r.patterns.eraseIdx c }

def prependPatterns (r : PatternRow G E) (ps : List Pattern) : PatternRow G E :=
  { r with patterns := ps ++ r.patterns }

def arrayAnyMatches (n : ℕ) : List Pattern := List.replicate n (.any .unnamed [95])

/-- `ps[0].patterns[c]`. -/
def headPattern (ps : PatternRows G E) (c : ℕ) : Option Pattern := ps.head?.bind (·.patterns[c]?)

def columnName (ps : PatternRows G E) (c : ℕ) : Name := (headPattern ps c).elim .unnamed Pattern.name

section

variable {S : Type} [DecidableEq S]

/-- `bs[sv]`, changed by `f`. -/
def addToBranch (sv : S) (f : PatternRows G E → PatternRows G E) :
    List (S × PatternRows G E) → List (S × PatternRows G E)
  | [] => [(sv, f [])]
  | b :: bs => if b.1 = sv then (b.1, f b.2) :: bs else b :: addToBranch sv f bs

/-- One turn of the first loop of `makeSplitState`, over the branches and the rows that match anything. -/
def splitRow (svalue : Pattern → Option S) (matchRow : Pattern → PatternRow G E → PatternRow G E)
    (anyRow : S → PatternRow G E → PatternRow G E) (c : ℕ) (acc : List (S × PatternRows G E) × PatternRows G E)
    (r : PatternRow G E) : Option (List (S × PatternRows G E) × PatternRows G E) := do
  let p ← r.patterns[c]?
  match svalue p with
  | some sv =>
    return (addToBranch sv (fun outrs =>
      (if outrs.isEmpty then acc.2.map (anyRow sv) else outrs) ++ [matchRow p r]) acc.1, acc.2)
  | none =>
    if p.isAny then return (acc.1.map fun b => (b.1, b.2 ++ [anyRow b.1 r]), acc.2 ++ [r]) else none

/-- Split a table on a column. The branches are followed in the order of their values. -/
def makeSplitState (le : S → S → Prop) [DecidableRel le] (svalue : Pattern → Option S)
    (matchRow : Pattern → PatternRow G E → PatternRow G E) (anyRow : S → PatternRow G E → PatternRow G E)
    (makeNextState : Name → S → PatternRows G E → Make G E ℕ)
    (makeSwitchState : Name → List (S × ℕ) → Option ℕ → Make G E (MState G E))
    (mk : PatternRows G E → Make G E ℕ) (ps : PatternRows G E) (c : ℕ) : Make G E (MState G E) :=
  match ps.foldlM (splitRow svalue matchRow anyRow c) ([], []) with
  | none => throw .invalidTable
  | some (bs, anys) => do
    let jmps ← (bs.insertionSort fun b b' => le b.1 b'.1).mapM fun b => do
      let s ← makeNextState (columnName ps c) b.1 b.2
      return (b.1, s)
    let defState ←
      if anys.isEmpty then pure none
      else do
        let s ← mk (anys.map (copyRowWithoutColumn · c))
        pure (some s)
    makeSwitchState (columnName ps c) jmps defState

end

section

variable [DecidableEq G] [DecidableEq E] (mk : PatternRows G E → Make G E ℕ) (ps : PatternRows G E) (c : ℕ)

/-! ### Literals -/

def litValue : Pattern → Option Primitive
  | .literal _ p => some p
  | _ => none

def makeLiteralState : Make G E (MState G E) :=
  makeSplitState (fun p q => primOrder p ≤ primOrder q) litValue (fun _ r => copyRowWithoutColumn r c)
    (fun _ r => copyRowWithoutColumn r c) (fun _ _ nps => mk nps) makeSwitch mk ps c

/-! ### Arrays -/

def maSize : Pattern → Option ℕ
  | .array _ ps => some ps.length
  | _ => none

def arrayPatterns : Pattern → List Pattern
  | .array _ ps => ps
  | _ => []

def makeASSuccState (arrayVar : Name) (len : ℕ) (nps : PatternRows G E) : Make G E ℕ := do
  let next ← mk nps
  addState (.loadVars ((List.range len).map fun i => (.element arrayVar i, .element arrayVar i)) next)

def makeASSwitch (arrayVar : Name) (lenjmps : List (ℕ × ℕ)) (defState : Option ℕ) : Make G E (MState G E) := do
  let st ← makeSwitch (.size arrayVar) (lenjmps.map fun lj => (.long (BitVec.ofNat 64 lj.1), lj.2)) defState
  let switchState ← addState st
  let ptr ← newExpr
  return .loadVars [(.view arrayVar, .openArray arrayVar ptr), (.size arrayVar, .size (.view arrayVar))] switchState

def makeArrayState : Make G E (MState G E) :=
  makeSplitState (· ≤ ·) maSize (fun p r => prependPatterns (copyRowWithoutColumn r c) (arrayPatterns p))
    (fun len r => prependPatterns (copyRowWithoutColumn r c) (arrayAnyMatches len)) (makeASSuccState mk) makeASSwitch
    mk ps c

/-! ### Strings -/

def maxStringLen : ℕ :=
  ps.foldl (fun mlen (r : PatternRow G E) =>
    match r.patterns[c]? with
    | some (.array _ ma) => max ma.length mlen
    | _ => mlen) 0

def sarrayPatterns (svarName : Name) (cs : ℕ) (ma : List Pattern) : Option (List Pattern) :=
  (wordLoads 0 cs).mapM fun i => do
    let x ← translatep (ma.map Pattern.unnamed) i
    return .literal (.word svarName i) (.long x)

def addSATableRow (len : ℕ) (r : PatternRow G E) : Option (PatternRow G E) :=
  match r.patterns[c]? with
  | some (.array svarName ma) => do
    let words ← sarrayPatterns svarName len ma
    return prependPatterns (copyRowWithoutColumn r c) words
  | some (.any _ _) => some (prependPatterns (copyRowWithoutColumn r c) (arrayAnyMatches (packedSValues len)))
  | _ => none

def makeCharArrayState : Make G E (MState G E) := do
  let arrayVar := columnName ps c
  let mlen := alignSize (maxStringLen ps c + 1) 8
  let ptr ← newExpr
  match ps.mapM (addSATableRow c mlen) with
  | none => throw .notAString
  | some nps => do
    let next ← mk nps
    return .loadVars ((.view arrayVar, .openArray arrayVar ptr) ::
      (wordLoads 0 mlen).map fun i => (.word arrayVar i, .packCArrLong (.view arrayVar) i ptr)) next

def isCharLiteral : Pattern → Bool
  | .literal _ (.char _) => true
  | _ => false

def isLiteral (p : Pattern) : Bool := (litValue p).isSome

/-- Is the column one of strings? -/
def canMakeCharArrayState : Bool :=
  (ps.all fun r => match r.patterns[c]? with
    | some (.array _ ma) => ma.all isLiteral
    | some (.any _ _) => true
    | _ => false) &&
  ps.any fun r => match r.patterns[c]? with
    | some (.array _ ma) => ma.any isCharLiteral
    | _ => false

def canMakeCharArrStateAtColumn : Option ℕ := (List.range (width ps)).find? (canMakeCharArrayState ps)

/-! ### Records -/

def recordRow (n : ℕ) (r : PatternRow G E) : Option (PatternRow G E) :=
  match r.patterns[c]? with
  | some (.record _ fs) => some (prependPatterns (copyRowWithoutColumn r c) (fs.map Prod.snd))
  | some (.any _ _) => some (prependPatterns (copyRowWithoutColumn r c) (arrayAnyMatches n))
  | _ => none

def makeRecordState : Make G E (MState G E) :=
  match headPattern ps c with
  | some (.record x fs) =>
    match ps.mapM (recordRow c fs.length) with
    | none => throw .invalidTable
    | some cdef => do
      let next ← mk cdef
      return .loadVars (fs.map fun f => (f.2.name, .field x f.1)) next
  | _ => throw .invalidTable

/-! ### Variants -/

def varCtor : Pattern → Option Bytes
  | .variant _ lbl _ => some lbl
  | _ => none

def variantValue : Pattern → List Pattern
  | .variant _ _ p => [p]
  | _ => []

def makeVSSwitch (switchVar : Name) (jmps : List (Bytes × ℕ)) (defState : Option ℕ) : Make G E (MState G E) :=
  return .switchVariant switchVar jmps defState

def makeVariantState : Make G E (MState G E) :=
  makeSplitState (· ≤ ·) varCtor (fun p r => prependPatterns (copyRowWithoutColumn r c) (variantValue p))
    (fun _ r => prependPatterns (copyRowWithoutColumn r c) r.patterns[c]?.toList) (fun _ _ nps => mk nps) makeVSSwitch
    mk ps c

/-! ### The compiler -/

def makeSuccState : Make G E (MState G E) :=
  match headPattern ps c with
  | some (.literal _ _) => makeLiteralState mk ps c
  | some (.array _ _) => makeArrayState mk ps c
  | some (.record _ _) => makeRecordState mk ps c
  | some (.variant _ _ _) => makeVariantState mk ps c
  | _ => throw .wildcardColumn

def columnScore : ℕ :=
  (ps.foldl (fun (s : ℕ × List Primitive) r =>
    match r.patterns[c]? with
    | some p =>
      let r' := p.score s.2
      (s.1 + r'.1, r'.2)
    | none => s) (0, [])).1

/-- Take the column if it scores less than the best one so far. -/
def better (csc c : ℕ) : Option (ℕ × ℕ) → Option (ℕ × ℕ)
  | some (best, bc) => if csc < best then some (csc, c) else some (best, bc)
  | none => some (csc, c)

/-- The column to take apart, an array if there is one. A column in which the first row matches anything is not
taken apart. -/
def choosePivotColumn : Option ℕ :=
  let scored := (List.range (width ps)).foldl (fun (s : Option (ℕ × ℕ) × Option (ℕ × ℕ)) c =>
    match headPattern ps c with
    | none | some (.any _ _) => s
    | some p =>
      let csc := 1 + columnScore ps c
      (better csc c s.1, if (maSize p).isSome then better csc c s.2 else s.2)) (none, none)
  (scored.2.or scored.1).map Prod.snd

/-- The end of a match, or the test of a guard. -/
def makeFinishState : PatternRows G E → Make G E ℕ
  | [] => throw .invalidTable
  | r :: tail =>
    match r.guard with
    | none => addState (.finishExpr r.result)
    | some g => do
      let finish ← addState (.finishExpr r.result)
      if tail.isEmpty then throw .inexhaustiveAfterGuard
      else do
        let next ← mk tail
        let guardS ← addState (.switchVal .guardCheck [(.bool true, finish)] next)
        addState (.loadVars [(.guardCheck, .guard g)] guardS)

end

section

variable [DecidableEq G] [DecidableEq E]

/-- The state of a table, made for at most `fuel` tables one inside the other. -/
def makeDFAState : ℕ → PatternRows G E → Make G E ℕ
  | 0, _ => throw .outOfFuel
  | fuel + 1, xps => do
    let ps := dropUnusedColumns xps
    match canMakeCharArrStateAtColumn ps with
    | some c => do
      let st ← makeCharArrayState (makeDFAState fuel) ps c
      addState st
    | none => do
      match ← findTable ps with
      | some s => return s
      | none => do
        let result ← match choosePivotColumn ps with
          | some c => do
            let st ← makeSuccState (makeDFAState fuel) ps c
            addState st
          | none => makeFinishState (makeDFAState fuel) ps
        remember ps result
        return result

/-- The states of a match and the one to begin with. -/
def makeDFA (fuel : ℕ) (ps : PatternRows G E) : Except Failure (ℕ × MDFA G E) :=
  (do
    let _ ← ps.mapM fun r => addState (.finishExpr r.result)
    makeDFAState fuel ps : Make G E ℕ) ⟨[], [], 0, []⟩

end

/-- The names of the columns, given to all that is in them. -/
def assignNames (xs : List Name) (ps : PatternRows G E) : PatternRows G E :=
  ps.map fun r => { r with patterns := List.zipWith Pattern.assignName xs r.patterns }

end Hobbes.Match.Table
