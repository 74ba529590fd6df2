import Hobbes.Parse.Lalr
import Mathlib.Data.Finset.Fold
import Mathlib.Data.List.Lex
import Mathlib.Logic.Relation

/-!
# Functions that are summed along a relation

The traversal that finds the lookahead, over any nodes and any values. What it is about does not
depend on the traversal: the nodes that a node reaches, and the first way to a node, which is the
one that takes the earlier node where two ways part.
-/

namespace Hobbes.Parse

/-- `f'`, `+` and `R`, with the set that they are about in its order. -/
structure DigraphF (X Y : Type*) where
  xs : List X
  nodup : xs.Nodup
  fp : X → Y
  append : Y → Y → Y
  r : X → X → Bool

namespace DigraphF

variable {X Y : Type*} [DecidableEq X]

/-- The stack of the nodes on the way, their indices and the values so far. -/
structure State (X Y : Type*) where
  s : List X
  n : X → ℕ
  f : X → Y

/-- `(nat)-1`. -/
def inf : ℕ := 2 ^ 32 - 1

/-- Pop the stack down to `x`, giving the value of `x` to what is above it. -/
def joinScc (x : X) : List X → State X Y → State X Y
  | [], st => { st with s := [] }
  | cx :: s, st =>
    let st := { st with n := Function.update st.n cx inf }
    if cx = x then { st with s }
    else joinScc x s { st with f := Function.update st.f cx (st.f x) }

/-- The turn of `y` in the loop of `x`. If `y` was not visited yet, then `go` determines its value. -/
def visit (D : DigraphF X Y) (go : X → State X Y → Option (State X Y)) (x : X) (st : State X Y) (y : X) :
    Option (State X Y) :=
  if D.r x y then do
    let st ← if st.n y = 0 then go y st else some st
    return { st with f := Function.update st.f x (D.append (st.f x) (st.f y)) }
  else some st

def traverse (D : DigraphF X Y) : ℕ → X → State X Y → Option (State X Y)
  | 0, _, _ => none
  | k + 1, x, st => do
    let s := x :: st.s
    let d := s.length
    let st := { s, n := Function.update st.n x d, f := Function.update st.f x (D.fp x) }
    let st ← D.xs.foldlM (visit D (traverse D k) x) st
    return if st.n x = d then joinScc x st.s st else st

/-- A value that is read before it is set is the default one. -/
def map [Inhabited Y] (D : DigraphF X Y) (k : ℕ) : Option (X → Y) := do
  let st ← D.xs.foldlM (fun st x => if st.n x = 0 then traverse D k x st else some st)
    { s := [], n := fun _ => 0, f := fun _ => default }
  return st.f

/-! ### Sets of terminals -/

section TerminalSets

variable {X T : Type} [DecidableEq X] [LinearOrder (Terminal T)]

/-- What the traversal of the parser is this one for. -/
def ofGraph (D : Digraph.Graph X T) (h : D.xs.Nodup) : DigraphF X (TerminalSet T) :=
  ⟨D.xs, h, D.fp, setUnion, D.r⟩

def State.ofState (st : Digraph.State X T) : State X (TerminalSet T) := ⟨st.s, st.n, st.f⟩

omit [LinearOrder (Terminal T)] in
lemma ofState_joinScc (x : X) (s : List X) (st : Digraph.State X T) :
    State.ofState (Digraph.joinScc x s st) = joinScc x s (.ofState st) := by
  induction s generalizing st with
  | nil => rfl
  | cons cx s ih =>
    rw [Digraph.joinScc, joinScc]
    by_cases hx : cx = x
    · simp only [if_pos hx]
      rfl
    · simp only [if_neg hx]
      exact ih _

lemma map_foldlM {α β γ : Type*} (f : β → α → Option β) (f' : γ → α → Option γ) (g : β → γ)
    (h : ∀ b a, (f b a).map g = f' (g b) a) (l : List α) (b : β) : (l.foldlM f b).map g = l.foldlM f' (g b) := by
  induction l generalizing b with
  | nil => rfl
  | cons a l ih =>
    rw [List.foldlM_cons, List.foldlM_cons, ← h]
    cases f b a with
    | none => rfl
    | some b' => exact ih b'

lemma ofState_traverse (D : Digraph.Graph X T) (h : D.xs.Nodup) (k : ℕ) (x : X) (st : Digraph.State X T) :
    (Digraph.traverse D k x st).map State.ofState = traverse (ofGraph D h) k x (.ofState st) := by
  induction k generalizing x st with
  | zero => rfl
  | succ k ih =>
    rw [Digraph.traverse, traverse]
    have hvisit : ∀ st y, (if D.r x y then do
          let st ← if st.n y = 0 then Digraph.traverse D k y st else some st
          some { st with f := Function.update st.f x (setUnion (st.f x) (st.f y)) }
        else some st).map State.ofState = visit (ofGraph D h) (traverse (ofGraph D h) k) x (.ofState st) y := by
      intro st y
      have hgo := ih y st
      rw [visit]
      by_cases hr : D.r x y
      · by_cases hn : st.n y = 0
        · have hn' : (State.ofState st).n y = 0 := hn
          have hr' : (ofGraph D h).r x y := hr
          simp only [if_pos hr, if_pos hn, if_pos hr', if_pos hn', ← hgo]
          cases Digraph.traverse D k y st <;> rfl
        · have hn' : (State.ofState st).n y ≠ 0 := hn
          have hr' : (ofGraph D h).r x y := hr
          simp only [if_pos hr, if_neg hn, if_pos hr', if_neg hn']
          rfl
      · exact (congrArg _ (if_neg hr)).trans (if_neg hr).symm
    have hloop := map_foldlM _ _ State.ofState hvisit D.xs
      ⟨x :: st.s, Function.update st.n x (x :: st.s).length, Function.update st.f x (D.fp x)⟩
    refine Eq.trans ?_ (congrArg (Option.bind · _) hloop)
    generalize List.foldlM (m := Option) _ _ D.xs = o
    cases o with
    | none => rfl
    | some st' =>
      refine congrArg some ((apply_ite State.ofState _ _ _).trans ?_)
      rw [ofState_joinScc]
      rfl

/-- Both traversals give the same values. -/
lemma map_ofGraph (D : Digraph.Graph X T) (h : D.xs.Nodup) (k : ℕ) : (ofGraph D h).map k = Digraph.map D k := by
  have hturn : ∀ st x, (if st.n x = 0 then Digraph.traverse D k x st else some st).map State.ofState =
      if (State.ofState st).n x = 0 then traverse (ofGraph D h) k x (.ofState st) else some (.ofState st) := by
    intro st x
    by_cases hn : st.n x = 0
    · exact (congrArg _ (if_pos hn)).trans ((ofState_traverse D h k x st).trans (if_pos hn).symm)
    · exact (congrArg _ (if_neg hn)).trans (if_neg hn).symm
  have hroots := map_foldlM _ (fun st x => if st.n x = 0 then traverse (ofGraph D h) k x st else some st)
    State.ofState hturn D.xs ⟨[], fun _ => 0, fun _ => []⟩
  refine (congrArg (Option.bind · fun st => some st.f) hroots).symm.trans ?_
  unfold Digraph.map
  generalize List.foldlM (m := Option) _ _ D.xs = o
  cases o <;> rfl

end TerminalSets

/-! ### Sums -/

open Classical in
/-- The sum of the values of a set that `x` is in. -/
noncomputable def total (D : DigraphF X Y) [Std.Commutative D.append] [Std.Associative D.append]
    (S : X → Prop) (x : X) : Y :=
  (D.xs.toFinset.filter S).fold D.append (D.fp x) D.fp

variable (D : DigraphF X Y)

def Reaches : X → X → Prop := Relation.ReflTransGen fun x y => y ∈ D.xs ∧ D.r x y

/-! ### First ways -/

def Before (a b : X) : Prop := D.xs.idxOf a < D.xs.idxOf b

/-- A way from any node, listed from its end. It does not come to a node twice. -/
structure Way (q : List X) : Prop where
  nodup : q.Nodup
  sub : ∀ x ∈ q, x ∈ D.xs
  chain : q.IsChain fun y x => D.r x y

/-- Where two ways part, or at their starts, this one takes the earlier node. -/
def Sooner (q q' : List X) : Prop := List.Lex D.Before q.reverse q'.reverse

def First (q : List X) : Prop :=
  D.Way q ∧ ∀ q', D.Way q' → q'.head? = q.head? → q' = q ∨ D.Sooner q q'

/-- If the first way to `v` passes through `w`, then `y` is before the node to which it goes on. -/
def Early (v w y : X) : Prop :=
  ∀ t c pre, D.First (t ++ c :: w :: pre) → (t ++ c :: w :: pre).head? = some v → D.Before y c

/-- There are steps from a node to another one that make no late turn, the first to one of `p`. -/
inductive Gathers : (X → Prop) → X → X → Prop
  | here (p : X → Prop) (v : X) : Gathers p v v
  | step {p : X → Prop} {v w z : X} (hw : w ∈ D.xs) (hr : D.r v w) (hne : w ≠ v) (hp : p w)
      (h : Gathers (D.Early v w) w z) : Gathers p v z

abbrev Gathered (x z : X) : Prop := D.Gathers (fun _ => True) x z

end DigraphF

end Hobbes.Parse
