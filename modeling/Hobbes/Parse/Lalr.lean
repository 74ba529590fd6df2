import Hobbes.Parse.Grammar
import Mathlib.Algebra.Group.Nat.Defs

/-!
# The LALR(1) table of a grammar

The states of the LR(0) parser are numbered as they are found. The lookahead of a completed item
depends on its state: `la q i` is what is kept with the item `i` in the state `q`. The loops of the
construction have no result where `n` rounds do not end them.
-/

namespace Hobbes.Parse

open Core

variable {T : Type} [LinearOrder (Terminal T)]

abbrev TerminalSet (T : Type) := List (Terminal T)

structure Item (T : Type) where
  agg : Terminal T
  /-- the read position in the rule -/
  p : ℕ
  r : ℕ

abbrev Itemset (T : Type) := List (Item T)

abbrev StateTransitions (T : Type) := List (Terminal T × ℕ)

structure ParserDef (T : Type) where
  g : Grammar (Terminal T)
  states : List (Itemset T)
  transitions : List (StateTransitions T)
  nullable : TerminalSet T
  la : ℕ → Item T → TerminalSet T

instance : DecidableEq (Item T) := fun i j =>
  decidable_of_iff (i.agg = j.agg ∧ i.p = j.p ∧ i.r = j.r) (by cases i; cases j; simp)

/-- `operator<` of items, or equality. -/
def Item.le (i j : Item T) : Prop :=
  if i.agg ≠ j.agg then i.agg < j.agg else if i.p ≠ j.p then i.p < j.p else i.r ≤ j.r

instance : DecidableRel (Item.le (T := T)) := fun i j => by
  unfold Item.le
  infer_instance

def setUnion (ts us : TerminalSet T) : TerminalSet T := insertAll (· ≤ ·) ts us

/-! ### The LR(0) parser -/

def ruleItems (g : Grammar (Terminal T)) (t : Terminal T) : Itemset T :=
  (List.range ((aggRules g t).getD []).length).map fun r => ⟨t, 0, r⟩

def succ (i : Item T) : Item T := { i with p := i.p + 1 }

/-- The next value to read, which is not there when the item is complete. Every item is made from
a rule, so that the lookup of the rule does not throw. -/
def next (g : Grammar (Terminal T)) (i : Item T) : Option (Terminal T) :=
  (ruleOf g i.agg i.r).bind (ruleElement · i.p)

def nextAll (g : Grammar (Terminal T)) (is : Itemset T) : TerminalSet T :=
  insertAll (· ≤ ·) [] (is.filterMap (next g))

/-- The terminals that come next. -/
def nextPrim (g : Grammar (Terminal T)) (is : Itemset T) : TerminalSet T :=
  insertAll (· ≤ ·) [] ((is.filterMap (next g)).filter (!hasRule g ·))

def followItems (g : Grammar (Terminal T)) (is : Itemset T) (v : Terminal T) : Itemset T :=
  insertAll Item.le [] ((is.filter (next g · = some v)).map succ)

def closureRound (g : Grammar (Terminal T)) (is : Itemset T) : Itemset T :=
  (nextAll g is).foldl (fun is t =>
    if hasRule g t then insertAll Item.le is (ruleItems g t) else is) is

def closure (n : ℕ) (g : Grammar (Terminal T)) (is : Itemset T) : Option (Itemset T) :=
  fixpoint (closureRound g) n is

/-- The number of a state, which is a new one if there is no such state yet. -/
def parserState (is : Itemset T) (states : List (Itemset T)) : ℕ × List (Itemset T) :=
  if is ∈ states then (states.idxOf is, states) else (states.length, states ++ [is])

/-- The transitions of a state, in the order of the values that come next. -/
def followStates (n : ℕ) (g : Grammar (Terminal T)) (is : Itemset T) :
    TerminalSet T → StateTransitions T → List (Itemset T) →
      Option (StateTransitions T × List (Itemset T))
  | [], r, states => some (r, states)
  | v :: vs, r, states =>
    if v = .endOfFile then followStates n g is vs r states
    else do
      let js ← closure n g (followItems g is v)
      let (j, states) := parserState js states
      followStates n g is vs (r ++ [(v, j)]) states

/-- The loop of `lr0parser` over the states, which have transitions up to the current one. -/
def enumerate (n : ℕ) (g : Grammar (Terminal T)) : ℕ → List (Itemset T) →
    List (StateTransitions T) → Option (List (Itemset T) × List (StateTransitions T))
  | 0, _, _ => none
  | k + 1, states, trs =>
    match states[trs.length]? with
    | none => some (states, trs)
    | some is => do
      let (r, states) ← followStates n g is (nextAll g is) [] states
      enumerate n g k states (trs ++ [r])

/-- The grammar with its boot rule `s' -> s $`. -/
def bootGrammar (g : Grammar T) (s : T) : Grammar (Terminal T) :=
  (.privstart, [[.user s, .endOfFile]]) ::
    g.map fun x => (.user x.1, x.2.map fun r => r.map .user)

def lr0parser (n : ℕ) (g : Grammar T) (s : T) : Option (ParserDef T) := do
  let g := bootGrammar g s
  let is ← closure n g (insertAll Item.le [] (ruleItems g .privstart))
  let (states, transitions) ← enumerate n g n [is] []
  let nullable ← symbolsDerivingNull n (· ≤ ·) g
  return { g, states, transitions, nullable, la := fun _ _ => [] }

/-! ### Relations on the LR(0) parser -/

abbrev Transition (T : Type) := ℕ × Terminal T

/-- The transitions on symbols that have rules. -/
def transitions (p : ParserDef T) : List (Transition T) :=
  p.transitions.zipIdx.flatMap fun x =>
    (x.1.filter fun st => hasRule p.g st.1).map fun st => (x.2, st.1)

/-- Where there is no transition, `follow` throws. -/
def follow (p : ParserDef T) (q : ℕ) (t : Terminal T) : Option ℕ :=
  p.transitions[q]?.bind (·.lookup t)

def followPath (p : ParserDef T) : ℕ → List (Terminal T) → Option ℕ
  | q, [] => some q
  | q, t :: ts => (follow p q t).bind (followPath p · ts)

/-- Does the rule `w` of `r`, completed in `q`, look back to the transition `x`? -/
def lookback (p : ParserDef T) (q : ℕ) (r : Terminal T) (w : Rule (Terminal T))
    (x : Transition T) : Bool :=
  x.2 = r ∧ followPath p x.1 w = some q

/-- The prefixes `b` with `w = b a s` such that `s` derives the empty string, longest first. The
argument is what is left of `w`, reversed. -/
def endingAtRev (p : ParserDef T) (a : Terminal T) : List (Terminal T) → List (List (Terminal T))
  | [] => []
  | t :: ts =>
    (if t = a then [ts.reverse] else []) ++ if t ∈ p.nullable then endingAtRev p a ts else []

def endingAt (p : ParserDef T) (w : Rule (Terminal T)) (a : Terminal T) :
    List (List (Terminal T)) :=
  endingAtRev p a w.reverse

/-- `(s, A)` includes `(s', B)` if `B -> w A g`, `g` derives the empty string and `w` leads from
`s'` to `s`. -/
def includes (p : ParserDef T) (x y : Transition T) : Bool :=
  ((aggRules p.g y.2).getD []).any fun r =>
    (endingAt p r x.2).any fun pfx => followPath p y.1 pfx = some x.1

/-- `(s, A)` reads `(s', B)` if `A` leads from `s` to `s'` and `B` derives the empty string. -/
def reads (p : ParserDef T) (x y : Transition T) : Bool :=
  follow p x.1 x.2 = some y.1 ∧ y.2 ∈ p.nullable

/-- The terminals that are expected right after a transition. -/
def directReads (p : ParserDef T) (x : Transition T) : TerminalSet T :=
  nextPrim p.g (((follow p x.1 x.2).bind (p.states[·]?)).getD [])

/-! ### The lookahead -/

namespace Digraph

variable {X : Type} [DecidableEq X]

structure Graph (X : Type) (T : Type) where
  xs : List X
  fp : X → TerminalSet T
  r : X → X → Bool

/-- The stack of the nodes on the way, their indices and the values so far. -/
structure State (X : Type) (T : Type) where
  s : List X
  n : X → ℕ
  f : X → TerminalSet T

/-- `(nat)-1`. -/
def inf : ℕ := 2 ^ 32 - 1

/-- Pop the stack down to `x`, giving the value of `x` to what is above it. -/
def joinScc (x : X) : List X → State X T → State X T
  | [], st => { st with s := [] }
  | cx :: s, st =>
    let st := { st with n := Function.update st.n cx inf }
    if cx = x then { st with s }
    else joinScc x s { st with f := Function.update st.f cx (st.f x) }

def traverse (D : Graph X T) : ℕ → X → State X T → Option (State X T)
  | 0, _, _ => none
  | k + 1, x, st => do
    let s := x :: st.s
    let d := s.length
    let st := { s, n := Function.update st.n x d, f := Function.update st.f x (D.fp x) }
    let st ← D.xs.foldlM (fun st y =>
      if D.r x y then do
        let st ← if st.n y = 0 then traverse D k y st else some st
        some { st with f := Function.update st.f x (setUnion (st.f x) (st.f y)) }
      else some st) st
    return if st.n x = d then joinScc x st.s st else st

def map (D : Graph X T) (k : ℕ) : Option (X → TerminalSet T) := do
  let st ← D.xs.foldlM (fun st x => if st.n x = 0 then traverse D k x st else some st)
    { s := [], n := fun _ => 0, f := fun _ => [] }
  return st.f

end Digraph

open Digraph in
def Reads (n : ℕ) (p : ParserDef T) : Option (Transition T → TerminalSet T) :=
  Digraph.map ⟨transitions p, directReads p, reads p⟩ n

open Digraph in
def Follow (n : ℕ) (p : ParserDef T) : Option (Transition T → TerminalSet T) := do
  let r ← Reads n p
  Digraph.map ⟨transitions p, r, includes p⟩ n

/-- Give every completed item its lookahead. -/
def apply (tl : Transition T → TerminalSet T) (p : ParserDef T) : ParserDef T :=
  { p with la := fun q i =>
      match ruleOf p.g i.agg i.r, next p.g i with
      | some w, none => ((transitions p).filter (lookback p q i.agg w)).foldl
          (fun la x => setUnion la (tl x)) []
      | _, _ => [] }

def lalr1parser (n : ℕ) (g : Grammar T) (s : T) : Option (ParserDef T) := do
  let p ← lr0parser n g s
  let tl ← Follow n p
  return apply tl p

/-! ### The table -/

inductive Action (T : Type) where
  | goTo (s : ℕ)
  | shift (s : ℕ)
  | reduce (x : Terminal T) (r n : ℕ)
  | accept

instance : DecidableEq (Action T)
  | .goTo s, .goTo s' => decidable_of_iff (s = s') (by rw [Action.goTo.injEq])
  | .shift s, .shift s' => decidable_of_iff (s = s') (by rw [Action.shift.injEq])
  | .reduce x r n, .reduce x' r' n' =>
    decidable_of_iff (x = x' ∧ r = r' ∧ n = n') (by rw [Action.reduce.injEq])
  | .accept, .accept => isTrue rfl
  | .goTo _, .shift _ | .goTo _, .reduce _ _ _ | .goTo _, .accept
  | .shift _, .goTo _ | .shift _, .reduce _ _ _ | .shift _, .accept
  | .reduce _ _ _, .goTo _ | .reduce _ _ _, .shift _ | .reduce _ _ _, .accept
  | .accept, .goTo _ | .accept, .shift _ | .accept, .reduce _ _ _ => isFalse nofun

abbrev LrState (T : Type) := List (Terminal T × Action T)

abbrev LrTable (T : Type) := List (LrState T)

namespace Assoc

inductive Pref where
  | non
  | left
  | right
deriving DecidableEq

end Assoc

structure Prec where
  level : ℕ
  asc : Assoc.Pref

abbrev Precedence (T : Type) := List (Terminal T × Prec)

/-- `ambiguity_conflict`, with its message and the terminal that failed. -/
inductive AmbiguityConflict (T : Type) where
  | reduceReduce (a b : Action T) (t : Terminal T)
  | shiftReduce (t : Terminal T)

/-- What `lalrTable` throws: a conflict with the items of its state, or the error of `follow`. -/
inductive TableFailure (T : Type) where
  | conflict (ex : AmbiguityConflict T) (faileditems : Itemset T)
  | invalidSymbol

/-- The last terminal of a rule. -/
def reduceOpTerminal (p : ParserDef T) (x : Terminal T) (r : ℕ) : Option (Terminal T) :=
  ((ruleOf p.g x r).getD []).reverse.find? fun t => !hasRule p.g t

/-- Is `t` to be shifted rather than the rule `r` of `x` reduced? -/
def shiftInstead (p : ParserDef T) (px : Precedence T) (t x : Terminal T) (r : ℕ) :
    Except (AmbiguityConflict T) Bool :=
  match px.lookup t, (reduceOpTerminal p x r).bind (List.lookup · px) with
  | some tp, some up =>
    if tp.level < up.level then .ok false
    else if up.level < tp.level then .ok true
    else if tp.asc = up.asc ∧ tp.asc ≠ .non then .ok (tp.asc ≠ .left)
    else .error (.shiftReduce t)
  | _, _ => .error (.shiftReduce t)

/-- Replace the action for `t`. -/
def setAction (s : LrState T) (t : Terminal T) (a : Action T) : LrState T :=
  s.map fun x => if x.1 = t then (t, a) else x

def addAction (p : ParserDef T) (px : Precedence T) (s : LrState T) (t : Terminal T)
    (a : Action T) : Except (AmbiguityConflict T) (LrState T) :=
  match s.lookup t with
  | none => .ok (s ++ [(t, a)])
  | some b =>
    if b = a then .ok s
    else match a, b with
      | .reduce _ _ _, .reduce _ _ _ => .error (.reduceReduce a b t)
      | .shift _, .reduce x r _ => do
        return if ← shiftInstead p px t x r then setAction s t a else s
      | .reduce x r _, _ => do
        return if ← shiftInstead p px t x r then s else setAction s t a
      -- a terminal has one target, and what has rules is not shifted
      | _, _ => .ok s

/-- Insert an action where there is none yet. -/
def insertAction (s : LrState T) (t : Terminal T) (a : Action T) : LrState T :=
  if (s.lookup t).isSome then s else s ++ [(t, a)]

def addAccept (s : LrState T) (t : Terminal T) : LrState T := insertAction s t .accept

def addReduce (p : ParserDef T) (px : Precedence T) (s : LrState T) (ts : TerminalSet T)
    (agg : Terminal T) (rule len : ℕ) : Except (AmbiguityConflict T) (LrState T) :=
  ts.foldlM (fun s t => addAction p px s t (.reduce agg rule len)) s

def addGoto (s : LrState T) (nt : Terminal T) (next : ℕ) : LrState T :=
  insertAction s nt (.goTo next)

def addShift (p : ParserDef T) (px : Precedence T) (s : LrState T) (t : Terminal T) (next : ℕ) :
    Except (AmbiguityConflict T) (LrState T) :=
  addAction p px s t (.shift next)

/-- What an item of the state `n` adds to its row. -/
def addItem (p : ParserDef T) (px : Precedence T) (is : Itemset T) (n : ℕ) (ps : LrState T)
    (i : Item T) : Except (TableFailure T) (LrState T) :=
  match next p.g i with
  | none => (addReduce p px ps (p.la n i) i.agg i.r i.p).mapError (.conflict · is)
  | some t =>
    if hasRule p.g t then
      match follow p n t with
      | some j => .ok (addGoto ps t j)
      | none => .error .invalidSymbol
    else if t = .endOfFile then .ok (addAccept ps t)
    else
      match follow p n t with
      | some j => (addShift p px ps t j).mapError (.conflict · is)
      | none => .error .invalidSymbol

def lalrTable (p : ParserDef T) (px : Precedence T) : Except (TableFailure T) (LrTable T) :=
  p.states.zipIdx.mapM fun x => x.1.foldlM (addItem p px x.1 x.2) []

end Hobbes.Parse
