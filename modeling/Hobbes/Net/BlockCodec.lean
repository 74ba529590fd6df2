import Hobbes.Net.RoundTrip

/-!
# The server's end

The instances of `BlockCodec` that a server reads arguments and writes results with, by the type that
`io<T>::encode` describes to it. An instance becomes a function of the instances that it assumes.
-/

namespace Hobbes.Net

open Core Stream

variable {α β γ : Type}

structure BlockCodec (α : Type) where
  readFrom : Stream α
  writeTo : α → Bytes

/-- The classes `BlockReadVar` and `BlockWriteVar`. -/
structure BlockVar (γ : Type) where
  readVarByTag : ℕ → Stream γ
  writeVarWithTag : ℕ → γ → Bytes

namespace BlockCodec

def unit : BlockCodec Unit where
  readFrom := pure ()
  writeTo _ := []

/-- The instances for primitive types of `n` bytes. -/
def prim (n : ℕ) : BlockCodec (Mem n) where
  readFrom := do
    let bs ← Stream.recv n
    return fun i => (bs[i.1]?).getD 0
  writeTo := List.ofFn

def array (c : BlockCodec α) : BlockCodec (List α) where
  readFrom := do
    let n ← Stream.number Stream.recv 8
    Stream.replicate n c.readFrom
  writeTo xs := leBytes 8 xs.length ++ xs.flatMap c.writeTo

/-- The instances for tuples and for records, from those for the first field and for the others. To read into
a part of a new record is to read the part. -/
def record (h : BlockCodec α) (t : BlockCodec β) : BlockCodec (α × β) where
  readFrom := do
    let x ← h.readFrom
    let y ← t.readFrom
    return (x, y)
  writeTo p := h.writeTo p.1 ++ t.writeTo p.2

def variant (v : BlockVar γ) : BlockCodec γ where
  readFrom := do
    let tag ← Stream.number Stream.recv 4
    v.readVarByTag tag
  writeTo := v.writeVarWithTag 0

end BlockCodec

namespace BlockVar

/-- The instance for `|h+0|`. The tag is not looked at. -/
def last (h : BlockCodec α) : BlockVar (α ⊕ Empty) where
  readVarByTag _ := do
    let x ← h.readFrom
    return .inl x
  writeVarWithTag tg := Sum.elim (fun x => leBytes 4 tg ++ h.writeTo x) Empty.elim

/-- The instance for `|h+t|`. -/
def cons (h : BlockCodec α) (t : BlockVar β) : BlockVar (α ⊕ β) where
  readVarByTag tg :=
    if tg = 0 then do
      let x ← h.readFrom
      return .inl x
    else do
      let y ← t.readVarByTag (tg - 1)
      return .inr y
  writeVarWithTag tg := Sum.elim (fun x => leBytes 4 tg ++ h.writeTo x) (t.writeVarWithTag (tg + 1))

end BlockVar

/-! ### Types -/

inductive PrimTy where
  | bool
  | byte
  | char
  | short
  | int
  | long
  | float
  | double

/-- The types that are described to the server. The names of fields and of constructors are left out. -/
inductive HobbesTy where
  | unit
  | prim (p : PrimTy)
  | typeAlias (name : String) (rep : HobbesTy)
  | array (t : HobbesTy)
  | record (fs : List HobbesTy)
  | variant (cs : List HobbesTy)

def PrimTy.size : PrimTy → ℕ
  | bool | byte | char => 1
  | short => 2
  | int | float => 4
  | long | double => 8

mutual

def HobbesTy.Val : HobbesTy → Type
  | .unit => Unit
  | .prim p => Mem p.size
  | .typeAlias _ t => t.Val
  | .array t => List t.Val
  | .record fs => recordVal fs
  | .variant cs => variantVal cs

def recordVal : List HobbesTy → Type
  | [] => Unit
  | t :: ts => t.Val × recordVal ts

def variantVal : List HobbesTy → Type
  | [] => Empty
  | t :: ts => t.Val ⊕ variantVal ts

end

def HobbesTy.isUnit : HobbesTy → Bool
  | .unit => true
  | _ => false

/-! ### Enumerations -/

def ctorIndex : (cs : List HobbesTy) → variantVal cs → ℕ
  | [], v => v.elim
  | _ :: cs, v => Sum.elim (fun _ => 0) (fun t => ctorIndex cs t + 1) v

/-- A number is cast to a variant whose constructors have nothing. -/
def ctorAt : (cs : List HobbesTy) → ℕ → Option (variantVal cs)
  | .unit :: _, 0 => some (.inl ())
  | _ :: cs, i + 1 => (ctorAt cs i).map Sum.inr
  | _, _ => none

/-- The instance for `CanEnumBlockCodec`. -/
def BlockCodec.enum (cs : List HobbesTy) : BlockCodec (variantVal cs) where
  readFrom := do
    let tag ← Stream.number Stream.recv 4
    Stream.ofOption (ctorAt cs tag)
  writeTo v := leBytes 4 (ctorIndex cs v)

/-! ### Instances -/

section Instances

-- The names that the server has for other representations of `long`: `Convert t long`.
variable (converts : String → Bool)

/-- An opaque alias that does not convert to a `long` has no instance. -/
def aliasCodec (name : String) : (rep : HobbesTy) → Option (BlockCodec rep.Val)
  | .prim .long => if converts name then some (.prim 8) else none
  | _ => none

mutual

def HobbesTy.codec : (t : HobbesTy) → Option (BlockCodec t.Val)
  | .unit => some .unit
  | .prim p => some (.prim p.size)
  | .typeAlias name rep => aliasCodec converts name rep
  | .array t => t.codec.map .array
  | .record fs => recordCodec fs
  | .variant cs => if cs.all HobbesTy.isUnit then some (.enum cs) else (varCodec cs).map .variant

def recordCodec : (fs : List HobbesTy) → Option (BlockCodec (recordVal fs))
  | [] => some .unit
  | t :: ts => do
    let h ← t.codec
    let t ← recordCodec ts
    return .record h t

def varCodec : (cs : List HobbesTy) → Option (BlockVar (variantVal cs))
  | [] => none
  | [t] => t.codec.map .last
  | t :: t' :: ts => do
    let h ← t.codec
    let t ← varCodec (t' :: ts)
    return .cons h t

end

end Instances

/-! ### Descriptions -/

def Scalar.hobbes : Scalar → HobbesTy
  | .bool => .prim .bool
  | .byte => .prim .byte
  | .char => .prim .char
  | .short => .prim .short
  | .int => .prim .int
  | .long => .prim .long
  | .float => .prim .float
  | .double => .prim .double
  | .enum n => .variant (List.replicate n .unit)

mutual

/-- What `io<T>::encode` describes. -/
def Ty.hobbes : Ty → HobbesTy
  | .scalar s => s.hobbes
  | .unit => .unit
  | .string => .array (.prim .char)
  | .block s => .array s.hobbes
  | .variant t ts => .variant (t.hobbes :: allHobbes ts)
  | .pair a b => .record [a.hobbes, b.hobbes]
  | .vector t => .array t.hobbes
  | .map k t => .array (.record [k.hobbes, t.hobbes])
  | .struct [] | .tuple [] => .unit
  | .struct (t :: ts) | .tuple (t :: ts) => .record (t.hobbes :: allHobbes ts)
  | .typeAlias name t => .typeAlias name t.hobbes

def allHobbes : List Ty → List HobbesTy
  | [] => []
  | t :: ts => t.hobbes :: allHobbes ts

end

/-! ### Corresponding values -/

def Scalar.Corresponds : (s : Scalar) → Mem s.size → s.hobbes.Val → Prop
  | .bool, x, y | .byte, x, y | .char, x, y | .short, x, y | .int, x, y | .long, x, y | .float, x, y
  | .double, x, y => x = y
  | .enum n, x, y => ctorIndex (List.replicate n .unit) y = Mem.toNat x

mutual

def Ty.Corresponds : (t : Ty) → t.Val → t.hobbes.Val → Prop
  | .scalar s => s.Corresponds
  | .unit => fun _ _ => True
  | .string => fun x y => List.Forall₂ Eq (Io.elements 1 x) y
  | .block s => fun x y => List.Forall₂ s.Corresponds (Io.elements s.size x) y
  | .variant t ts => fun x y => ∃ p, x = some p ∧ Sum.LiftRel t.Corresponds (payloadCorresponds ts) p y
  | .pair a b => fun x y => a.Corresponds x.1 y.1 ∧ b.Corresponds x.2 y.2.1
  | .vector t => fun x y => List.Forall₂ t.Corresponds x y
  | .map k t => fun x y => List.Forall₂ (fun e f => k.Corresponds e.1 f.1 ∧ t.Corresponds e.2 f.2.1) x y
  | .struct [] | .tuple [] => fun _ _ => True
  | .struct (t :: ts) | .tuple (t :: ts) => fun x y =>
    t.Corresponds x.1 y.1 ∧ fieldsCorrespond ts x.2 y.2
  | .typeAlias _ t => t.Corresponds

def fieldsCorrespond : (ts : List Ty) → fieldsVal ts → recordVal (allHobbes ts) → Prop
  | [] => fun _ _ => True
  | t :: ts => fun x y => t.Corresponds x.1 y.1 ∧ fieldsCorrespond ts x.2 y.2

def payloadCorresponds : (ts : List Ty) → payloadVal ts → variantVal (allHobbes ts) → Prop
  | [] => fun _ _ => False
  | t :: ts => Sum.LiftRel t.Corresponds (payloadCorresponds ts)

end

/-! ### Aliases that are served -/

def Ty.isLong : Ty → Bool
  | .scalar .long => true
  | _ => false

mutual

/-- The opaque aliases are names that the server has for `long`. -/
def Ty.served (converts : String → Bool) : Ty → Bool
  | .scalar _ | .unit | .string | .block _ => true
  | .variant t ts => t.served converts && allServed converts ts
  | .pair a b | .map a b => a.served converts && b.served converts
  | .vector t => t.served converts
  | .struct ts | .tuple ts => allServed converts ts
  | .typeAlias name t => t.isLong && converts name

def allServed (converts : String → Bool) : List Ty → Bool
  | [] => true
  | t :: ts => t.served converts && allServed converts ts

end

end Hobbes.Net
