import Hobbes.Core.Stream
import Hobbes.Lang.Expr
import Hobbes.Lang.TypeCodec
import Mathlib.Algebra.Group.Int.Defs
import Mathlib.Data.Int.Notation

/-!
# The binary codec of expressions

`encode` is the visitor `encodeExprF`, `decodeFrom` the switch over case ids. What the constructors of
the nodes do and check is done and checked when a node is read.
-/

namespace Hobbes.Lang

open Core

/-! ### Constructors -/

/-- `a < b` for the bits of two floating point numbers, with a fraction of `m` bits below an exponent
of `e`. -/
def floatLT (e m : ℕ) (a b : BitVec (1 + e + m)) : Bool :=
  let magnitude (x : BitVec (1 + e + m)) : ℤ := x.toNat % 2 ^ (e + m)
  let value x := if x.msb then -magnitude x else magnitude x
  let isNaN x := (2 ^ e - 1) * 2 ^ m < magnitude x
  !isNaN a && !isNaN b && value a < value b

namespace Primitive

/-- `type_case_id` -/
def caseId : Primitive → BitVec 32
  | unit => 0
  | bool _ => 1
  | char _ => 2
  | byte _ => 3
  | short _ => 4
  | int _ => 5
  | long _ => 6
  | float _ => 7
  | double _ => 8

/-- `PrimPtrLT` -/
def lt : Primitive → Primitive → Bool
  | unit, unit => false
  | bool x, bool y => x < y
  | char x, char y => x.slt y
  | byte x, byte y => x.ult y
  | short x, short y => x.slt y
  | int x, int y => x.slt y
  | long x, long y => x.slt y
  | float x, float y => floatLT 8 23 x y
  | double x, double y => floatLT 11 52 x y
  | v, v' => v.caseId.slt v'.caseId

end Primitive

/-- Whether `find` meets `v` in a set of the others. -/
def Primitive.isIn (v : Primitive) (selectors : List Primitive) : Bool :=
  selectors.any fun v' => !v.lt v' && !v'.lt v

/-- The empty parameter list is made one of `"_"`. -/
def Fn.make (vs : List Bytes) (e : Expr) : Desc Expr :=
  .fn (if vs.isEmpty then [[95]] else vs) e

def App.make (fne : Expr) (argl : List Expr) : Desc Expr :=
  .app fne (if argl.isEmpty then [.mk (.prim .unit) none] else argl)

/-- Whether there is a selector for every value. The last case is that of `Case::type_case_id`, which
no selector has. -/
def Switch.exhaustive {ε : Type} (bs : List (Switch.Binding ε)) (dflt : Option ε) : Bool :=
  match bs with
  | [] => dflt.isSome
  | b :: _ =>
    match b.value with
    | .unit => true
    | .bool _ => dflt.isSome || bs.length == 2
    | .byte _ => dflt.isSome || bs.length == 256
    | _ => dflt.isSome

def Switch.duplicates : List Primitive → List Primitive → Bool
  | _, [] => false
  | selectors, v :: vs => v.isIn selectors || duplicates (v :: selectors) vs

def Switch.make (v : Expr) (bs : List (Switch.Binding Expr)) (dflt : Option Expr) :
    Option (Desc Expr) :=
  if exhaustive bs dflt && !duplicates [] (bs.map Binding.value) then some (.switch v bs dflt)
  else none

/-! ### The writer -/

def writeVector {α : Type} (f : α → Bytes) (xs : List α) : Bytes :=
  writeSize xs.length ++ xs.flatMap f

/-- `encode(const QualTypePtr&, std::ostream&)`, which throws if there are constraints. -/
def QualType.encode (qty : QualType) : Option Bytes :=
  if qty.constraints.isEmpty then
    some (writeSize 0 ++ writeString (Lang.encode qty.monoType))
  else none

def encodeType : Option QualType → Option Bytes
  | some qty => do
    let bs ← qty.encode
    return writeBool true ++ bs
  | none => some (writeBool false)

def Primitive.encode (v : Primitive) : Bytes :=
  writeInt v.caseId ++
    match v with
    | unit => []
    | bool x => writeBool x
    | char x | byte x => leBytes 1 x.toNat
    | short x => leBytes 2 x.toNat
    | int x | float x => leBytes 4 x.toNat
    | long x | double x => leBytes 8 x.toNat

/-- A primitive is written as the expression that it is. -/
def encodePrimitive (v : Primitive) (type : Option QualType) : Option Bytes := do
  let ty ← encodeType type
  return v.encode ++ ty

mutual

def Expr.encode : Expr → Option Bytes
  | .mk d type => do
    let bs ← encodeDesc d
    let ty ← encodeType type
    return bs ++ ty

/-- `encodeExprF` -/
def encodeDesc : Desc Expr → Option Bytes
  | .prim v => return v.encode
  | .var id => return writeInt 9 ++ writeString id
  | .letIn id e b => do
    let e ← e.encode
    let b ← b.encode
    return writeInt 10 ++ (writeString id ++ (e ++ b))
  | .letRec bs e => do
    let bss ← encodeBound bs
    let e ← e.encode
    return writeInt 11 ++ ((writeSize bs.length ++ bss) ++ e)
  | .fn vs e => do
    let e ← e.encode
    return writeInt 12 ++ (writeVector writeString vs ++ e)
  | .app fne argl => do
    let fne ← fne.encode
    let args ← encodeExprs argl
    return writeInt 13 ++ (fne ++ (writeSize argl.length ++ args))
  | .assign lhs rhs => do
    let lhs ← lhs.encode
    let rhs ← rhs.encode
    return writeInt 14 ++ (lhs ++ rhs)
  | .mkArray es => do
    let vs ← encodeExprs es
    return writeInt 15 ++ (writeSize es.length ++ vs)
  | .mkVariant lbl e => do
    let e ← e.encode
    return writeInt 16 ++ (writeString lbl ++ e)
  | .mkRecord fs => do
    let fss ← encodeBound fs
    return writeInt 17 ++ (writeSize fs.length ++ fss)
  | .aindex arr i => do
    let arr ← arr.encode
    let i ← i.encode
    return writeInt 18 ++ (arr ++ i)
  | .case v bs dflt => do
    let v ← v.encode
    let bss ← encodeCases bs
    let d ← encodeDefault dflt
    return writeInt 19 ++ (v ++ ((writeSize bs.length ++ bss) ++ d))
  | .switch v bs dflt => do
    let v ← v.encode
    let bss ← encodeSwitches bs
    let d ← encodeDefault dflt
    return writeInt 20 ++ (v ++ ((writeSize bs.length ++ bss) ++ d))
  | .proj r field => do
    let r ← r.encode
    return writeInt 21 ++ (r ++ writeString field)
  | .assump e t => do
    let e ← e.encode
    let t ← t.encode
    return writeInt 22 ++ (e ++ t)
  | .pack e => do
    let e ← e.encode
    return writeInt 23 ++ e
  | .unpack vn pkg body => do
    let pkg ← pkg.encode
    let body ← body.encode
    return writeInt 24 ++ (writeString vn ++ (pkg ++ body))

def encodeExprs : List Expr → Option Bytes
  | [] => some []
  | e :: es => do
    let e ← e.encode
    let es ← encodeExprs es
    return e ++ es

def encodeBound : List (Bytes × Expr) → Option Bytes
  | [] => some []
  | (vn, e) :: bs => do
    let e ← e.encode
    let bs ← encodeBound bs
    return (writeString vn ++ e) ++ bs

def encodeCases : List (Case.Binding Expr) → Option Bytes
  | [] => some []
  | ⟨selector, vname, exp⟩ :: bs => do
    let e ← exp.encode
    let bs ← encodeCases bs
    return (writeString selector ++ (writeString vname ++ e)) ++ bs

def encodeSwitches : List (Switch.Binding Expr) → Option Bytes
  | [] => some []
  | ⟨value, valueType, exp⟩ :: bs => do
    let v ← encodePrimitive value valueType
    let e ← exp.encode
    let bs ← encodeSwitches bs
    return (v ++ e) ++ bs

def encodeDefault : Option Expr → Option Bytes
  | some e => do
    let e ← e.encode
    return writeBool true ++ e
  | none => some (writeBool false)

end

/-! ### The reader -/

namespace Decode

def number (k : ℕ) : Stream ℕ := Stream.number Stream.read k

def bool : Stream Bool := do
  let x ← number 1
  return x != 0

def bits (k : ℕ) : Stream (BitVec (8 * k)) := do
  let x ← number k
  return BitVec.ofNat (8 * k) x

def string : Stream Bytes := Stream.counted Stream.read 8

def vector {α : Type} (r : Stream α) : Stream (List α) := do
  let sz ← number 8
  Stream.replicate sz r

def qualType (L : Layout) : Stream QualType := do
  let _ ← number 8
  let cs ← string
  if cs.isEmpty then Stream.fail
  else
    let mty ← Stream.ofOption (Lang.decode L cs)
    return ⟨[], mty.1⟩

def bound (decodeFrom : Stream Expr) : Stream (Bytes × Expr) := do
  let vn ← string
  let e ← decodeFrom
  return (vn, e)

def caseBinding (decodeFrom : Stream Expr) : Stream (Case.Binding Expr) := do
  let selector ← string
  let vname ← string
  let exp ← decodeFrom
  return ⟨selector, vname, exp⟩

/-- The expression that is read is taken to be a primitive. There is no result where it is none. -/
def switchBinding (decodeFrom : Stream Expr) : Stream (Switch.Binding Expr) := do
  let value ← decodeFrom
  match value with
  | .mk (.prim v) t =>
    let exp ← decodeFrom
    return ⟨v, t, exp⟩
  | _ => Stream.fail

def dflt (decodeFrom : Stream Expr) : Stream (Option Expr) := do
  let hasDef ← bool
  if hasDef then
    let d ← decodeFrom
    return some d
  else return none

def type (L : Layout) : Stream (Option QualType) := do
  let hasType ← bool
  if hasType then
    let qty ← qualType L
    return some qty
  else return none

section

variable (L : Layout) (decodeFrom : Stream Expr)

def letIn : Stream (Desc Expr) := do
  let vn ← string
  let e ← decodeFrom
  let b ← decodeFrom
  return .letIn vn e b

def letRec : Stream (Desc Expr) := do
  let bs ← vector (bound decodeFrom)
  let body ← decodeFrom
  return .letRec bs body

def fn : Stream (Desc Expr) := do
  let args ← vector string
  let b ← decodeFrom
  return Fn.make args b

def app : Stream (Desc Expr) := do
  let f ← decodeFrom
  let args ← vector decodeFrom
  return App.make f args

def assign : Stream (Desc Expr) := do
  let le ← decodeFrom
  let re ← decodeFrom
  return .assign le re

def mkArray : Stream (Desc Expr) := do
  let es ← vector decodeFrom
  return .mkArray es

def mkVariant : Stream (Desc Expr) := do
  let lbl ← string
  let v ← decodeFrom
  return .mkVariant lbl v

def mkRecord : Stream (Desc Expr) := do
  let fs ← vector (bound decodeFrom)
  return .mkRecord fs

def aindex : Stream (Desc Expr) := do
  let a ← decodeFrom
  let i ← decodeFrom
  return .aindex a i

def case : Stream (Desc Expr) := do
  let v ← decodeFrom
  let bs ← vector (caseBinding decodeFrom)
  let d ← dflt decodeFrom
  return .case v bs d

def switch : Stream (Desc Expr) := do
  let v ← decodeFrom
  let bs ← vector (switchBinding decodeFrom)
  let d ← dflt decodeFrom
  Stream.ofOption (Switch.make v bs d)

def proj : Stream (Desc Expr) := do
  let r ← decodeFrom
  let f ← string
  return .proj r f

def assump : Stream (Desc Expr) := do
  let e ← decodeFrom
  let t ← qualType L
  return .assump e t

def pack : Stream (Desc Expr) := do
  let e ← decodeFrom
  return .pack e

def unpack : Stream (Desc Expr) := do
  let vn ← string
  let p ← decodeFrom
  let e ← decodeFrom
  return .unpack vn p e

/-- The switch over case ids. There is no case for `Float::type_case_id`, 7. -/
def desc : ℕ → Stream (Desc Expr)
  | 0 => pure (.prim .unit)
  | 1 => do return .prim (.bool (← bool))
  | 2 => do return .prim (.char (← bits 1))
  | 3 => do return .prim (.byte (← bits 1))
  | 4 => do return .prim (.short (← bits 2))
  | 5 => do return .prim (.int (← bits 4))
  | 6 => do return .prim (.long (← bits 8))
  | 8 => do return .prim (.double (← bits 8))
  | 9 => do return .var (← string)
  | 10 => letIn decodeFrom
  | 11 => letRec decodeFrom
  | 12 => fn decodeFrom
  | 13 => app decodeFrom
  | 14 => assign decodeFrom
  | 15 => mkArray decodeFrom
  | 16 => mkVariant decodeFrom
  | 17 => mkRecord decodeFrom
  | 18 => aindex decodeFrom
  | 19 => case decodeFrom
  | 20 => switch decodeFrom
  | 21 => proj decodeFrom
  | 22 => assump L decodeFrom
  | 23 => pack decodeFrom
  | 24 => unpack decodeFrom
  | _ => Stream.fail

end

end Decode

/-- `decode(ExprPtr*, std::istream&)`, as deep as `fuel` allows. -/
def Expr.decodeFrom (L : Layout) : ℕ → Stream Expr
  | 0 => Stream.fail
  | fuel + 1 => do
    let cid ← Decode.number 4
    let d ← Decode.desc L (decodeFrom L fuel) cid
    let t ← Decode.type L
    return .mk d t

/-- Each level of an expression takes bytes for its case id, except at the end of the stream, where
the case id is read as that of unit. -/
def Expr.decode (L : Layout) : Stream Expr := fun bs => decodeFrom L (bs.length + 1) bs

end Hobbes.Lang
