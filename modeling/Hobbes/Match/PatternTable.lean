import Hobbes.Match.CharArrays
import Hobbes.Match.Dfa

/-!
# Pattern tables

The rows of a match, with patterns for values that are taken apart down to constants. Patterns for regular expressions
are left out, and so are constants that the input is converted to. A name that a match gives to a part of its input
is a string that says how the part is reached, and is kept as just that. Results and guards are known by the pointers
to them.
-/

namespace Hobbes.Match.Table

open Core Lang

inductive Name where
  | root (vn : Bytes)
  | element (x : Name) (i : ℕ)
  | field (x : Name) (f : Bytes)
  /-- what a constructor holds -/
  | payload (x : Name)
  | size (x : Name)
  /-- an array, opened -/
  | view (x : Name)
  | word (x : Name) (i : ℕ)
  | guardCheck
  /-- what no name was given to -/
  | unnamed
deriving DecidableEq

/-! ### Patterns -/

inductive Pattern where
  | any (name : Name) (vn : Bytes)
  | literal (name : Name) (equivConstant : Primitive)
  | array (name : Name) (ps : List Pattern)
  | record (name : Name) (fs : List (Bytes × Pattern))
  | variant (name : Name) (lbl : Bytes) (p : Pattern)

/-! The cases of an induction over patterns. -/

structure Pattern.Cases (P : Pattern → Prop) : Prop where
  any : ∀ x vn, P (.any x vn)
  literal : ∀ x p, P (.literal x p)
  array : ∀ x ps, (∀ p ∈ ps, P p) → P (.array x ps)
  record : ∀ x (fs : List (Bytes × Pattern)), (∀ f ∈ fs, P f.2) → P (.record x fs)
  variant : ∀ x lbl p, P p → P (.variant x lbl p)

mutual

lemma Pattern.Cases.all {P : Pattern → Prop} (h : Pattern.Cases P) : ∀ p, P p
  | .any x vn => h.any x vn
  | .literal x p => h.literal x p
  | .array x ps => h.array x ps (h.allPatterns ps)
  | .record x fs => h.record x fs (h.allFields fs)
  | .variant x lbl p => h.variant x lbl p (h.all p)

lemma Pattern.Cases.allPatterns {P : Pattern → Prop} (h : Pattern.Cases P) : ∀ (ps : List Pattern), ∀ p ∈ ps, P p
  | [] => by simp
  | p :: ps => List.forall_mem_cons.mpr ⟨h.all p, h.allPatterns ps⟩

lemma Pattern.Cases.allFields {P : Pattern → Prop} (h : Pattern.Cases P) :
    ∀ (fs : List (Bytes × Pattern)), ∀ f ∈ fs, P f.2
  | [] => by simp
  | (_, p) :: fs => List.forall_mem_cons.mpr ⟨h.all p, h.allFields fs⟩

end

@[elab_as_elim, induction_eliminator]
lemma Pattern.induct {P : Pattern → Prop} (any : ∀ x vn, P (.any x vn)) (literal : ∀ x p, P (.literal x p))
    (array : ∀ x ps, (∀ p ∈ ps, P p) → P (.array x ps))
    (record : ∀ x (fs : List (Bytes × Pattern)), (∀ f ∈ fs, P f.2) → P (.record x fs))
    (variant : ∀ x lbl p, P p → P (.variant x lbl p)) (p : Pattern) : P p :=
  Pattern.Cases.all ⟨any, literal, array, record, variant⟩ p

namespace Pattern

def name : Pattern → Name
  | any x _ | literal x _ | array x _ | record x _ | variant x _ _ => x

def isAny : Pattern → Bool
  | any _ _ => true
  | _ => false

mutual

/-- `Pattern::name(x)`, with `assignSubNames`. -/
def assignName (x : Name) : Pattern → Pattern
  | any _ vn => any x vn
  | literal _ p => literal x p
  | array _ ps => array x (assignElements x 0 ps)
  | record _ fs => record x (assignFields x fs)
  | variant _ lbl p => variant x lbl (assignName (.payload x) p)

def assignElements (x : Name) (i : ℕ) : List Pattern → List Pattern
  | [] => []
  | p :: ps => assignName (.element x i) p :: assignElements x (i + 1) ps

def assignFields (x : Name) : List (Bytes × Pattern) → List (Bytes × Pattern)
  | [] => []
  | (f, p) :: fs => (f, assignName (.field x f) p) :: assignFields x fs

end

mutual

/-- `operator==`, which does not look at the names that were assigned. -/
def same : Pattern → Pattern → Bool
  | any _ v, any _ w => v = w
  | literal _ p, literal _ q => p = q
  | array _ ps, array _ qs => sameAll ps qs
  | record _ fs, record _ gs => sameFields fs gs
  | variant _ l p, variant _ m q => l = m && same p q
  | _, _ => false

def sameAll : List Pattern → List Pattern → Bool
  | [], [] => true
  | p :: ps, q :: qs => same p q && sameAll ps qs
  | _, _ => false

def sameFields : List (Bytes × Pattern) → List (Bytes × Pattern) → Bool
  | [], [] => true
  | (f, p) :: fs, (g, q) :: gs => f = g && same p q && sameFields fs gs
  | _, _ => false

end

mutual

/-- `scorePatternF`, with the constants that were counted. -/
def score : Pattern → List Primitive → ℕ × List Primitive
  | any _ _, recprims => (0, recprims)
  | literal _ p, recprims => if p ∈ recprims then (0, recprims) else (1, p :: recprims)
  | array _ ps, recprims =>
    let r := scoreAll ps recprims
    (1 + r.1, r.2)
  | record _ fs, recprims => scoreFields fs recprims
  | variant _ _ p, recprims =>
    let r := score p recprims
    (1 + r.1, r.2)

def scoreAll : List Pattern → List Primitive → ℕ × List Primitive
  | [], recprims => (0, recprims)
  | p :: ps, recprims =>
    let r := score p recprims
    let r' := scoreAll ps r.2
    (r.1 + r'.1, r'.2)

def scoreFields : List (Bytes × Pattern) → List Primitive → ℕ × List Primitive
  | [], recprims => (0, recprims)
  | (_, p) :: fs, recprims =>
    let r := score p recprims
    let r' := scoreFields fs r.2
    (r.1 + r'.1, r'.2)

end

/-- The pattern as it is packed, without its names. -/
def unnamed : Pattern → Match.Pattern
  | any _ _ => .any
  | literal _ p => .literal p
  | array _ _ => .array []
  | record _ _ => .record
  | variant _ _ _ => .variant

end Pattern

structure PatternRow (G E : Type) where
  patterns : List Pattern
  guard : Option G
  result : E

abbrev PatternRows (G E : Type) := List (PatternRow G E)

/-! ### What a match is to do -/

inductive Value where
  | prim (p : Primitive)
  | array (vs : List Value)
  | record (fs : List (Bytes × Value))
  | variant (lbl : Bytes) (v : Value)

namespace Pattern

mutual

/-- Does the pattern match the value? -/
def accepts : Pattern → Value → Bool
  | any _ _, _ => true
  | literal _ p, .prim q => p = q
  | array _ ps, .array vs => acceptsAll ps vs
  | record _ fs, .record vs => acceptsFields fs vs
  | variant _ l p, .variant m v => l = m && accepts p v
  | _, _ => false

def acceptsAll : List Pattern → List Value → Bool
  | [], [] => true
  | p :: ps, v :: vs => accepts p v && acceptsAll ps vs
  | _, _ => false

def acceptsFields : List (Bytes × Pattern) → List (Bytes × Value) → Bool
  | [], _ => true
  | (f, p) :: fs, vs =>
    (match vs.lookup f with
      | some v => accepts p v
      | none => false) && acceptsFields fs vs

end

end Pattern

variable {G E : Type}

/-- Does the row match the values, its guard included? -/
def PatternRow.accepts (guards : G → Bool) (r : PatternRow G E) (vs : List Value) : Bool :=
  Pattern.acceptsAll r.patterns vs && r.guard.all guards

/-- The result of the first row that matches. -/
def firstMatch (guards : G → Bool) (ps : PatternRows G E) (vs : List Value) : Option E :=
  (ps.find? (·.accepts guards vs)).map PatternRow.result

end Hobbes.Match.Table
