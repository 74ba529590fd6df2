import Hobbes.Net.Io

/-!
# Wire types

The types that a client can send and receive, and the instance of `io` that each of them has.
-/

namespace Hobbes.Net

open Core

/-- The types that `can_memcpy`. -/
inductive Scalar where
  | bool
  | byte
  | char
  | short
  | int
  | long
  | float
  | double
  | enum (count : ℕ)

def Scalar.size : Scalar → ℕ
  | bool | byte | char => 1
  | short => 2
  | int | float | enum _ => 4
  | long | double => 8

/-- An enumeration has the numbers of its constructors. -/
def Scalar.Valid : (s : Scalar) → Mem s.size → Prop
  | enum n, x => Mem.toNat x < n
  | _, _ => True

/-- A vector is a `block` if its elements can be copied. The names of fields and of constructors are left
out. -/
inductive Ty where
  | scalar (s : Scalar)
  | unit
  | string
  | block (s : Scalar)
  | variant (t : Ty) (ts : List Ty)
  | pair (a b : Ty)
  | vector (t : Ty)
  | map (k t : Ty)
  | struct (ts : List Ty)
  | tuple (ts : List Ty)
  | typeAlias (name : String) (t : Ty)

mutual

def Ty.Val : Ty → Type
  | .scalar s => Mem s.size
  | .unit => Unit
  | .string | .block _ => Bytes
  | .variant t ts => Option (t.Val ⊕ payloadVal ts)
  | .pair a b => a.Val × b.Val
  | .vector t => List t.Val
  | .map k t => List (k.Val × t.Val)
  | .struct ts | .tuple ts => fieldsVal ts
  | .typeAlias _ t => t.Val

def fieldsVal : List Ty → Type
  | [] => Unit
  | t :: ts => t.Val × fieldsVal ts

def payloadVal : List Ty → Type
  | [] => Empty
  | t :: ts => t.Val ⊕ payloadVal ts

end

section Instances

-- The keys of a map are compared by `less`.
variable (less : (t : Ty) → t.Val → t.Val → Bool)

mutual

def Ty.io : (t : Ty) → Io t.Val
  | .scalar s => Io.scalar s.size s.Valid
  | .unit => Io.unit
  | .string => Io.string
  | .block s => Io.block s.size s.Valid
  | .variant t ts => Io.variant (.cons t.io (ctorsIo ts))
  | .pair a b => Io.pair a.io b.io
  | .vector t => Io.vector t.io
  | .map k t => Io.map (less k) k.io t.io
  | .struct ts => Io.struct (fieldsIo ts)
  | .tuple ts => Io.tuple (fieldsIo ts)
  | .typeAlias _ t => t.io

def fieldsIo : (ts : List Ty) → Fields (fieldsVal ts)
  | [] => .nil
  | t :: ts => .cons t.io (fieldsIo ts)

def ctorsIo : (ts : List Ty) → Ctors (payloadVal ts)
  | [] => .nil
  | t :: ts => .cons t.io (ctorsIo ts)

end

end Instances

/-! ### Vectors that are copied -/

mutual

/-- The elements of the vectors that are copied have one byte. -/
def Ty.narrow : Ty → Bool
  | .scalar _ | .unit | .string => true
  | .block s => s.size = 1
  | .variant t ts => t.narrow && allNarrow ts
  | .pair a b | .map a b => a.narrow && b.narrow
  | .vector t | .typeAlias _ t => t.narrow
  | .struct ts | .tuple ts => allNarrow ts

def allNarrow : List Ty → Bool
  | [] => true
  | t :: ts => t.narrow && allNarrow ts

end

/-! ### Maps in types -/

mutual

/-- A value has a map that is not in the payload of a variant. -/
def Ty.hasMap : Ty → Bool
  | .scalar _ | .unit | .string | .block _ | .variant _ _ => false
  | .pair a b => a.hasMap || b.hasMap
  | .vector t | .typeAlias _ t => t.hasMap
  | .map _ _ => true
  | .struct ts | .tuple ts => anyHasMap ts

def anyHasMap : List Ty → Bool
  | [] => false
  | t :: ts => t.hasMap || anyHasMap ts

end

mutual

/-- No key and no value of a map has a map. -/
def Ty.flat : Ty → Bool
  | .scalar _ | .unit | .string | .block _ => true
  | .variant t ts => t.flat && allFlat ts
  | .pair a b => a.flat && b.flat
  | .vector t | .typeAlias _ t => t.flat
  | .map k t => !k.hasMap && !t.hasMap && k.flat && t.flat
  | .struct ts | .tuple ts => allFlat ts

def allFlat : List Ty → Bool
  | [] => true
  | t :: ts => t.flat && allFlat ts

end

/-- An enumeration has a constructor. -/
def Scalar.WellFormed : Scalar → Prop
  | enum n => 0 < n ∧ n < 2 ^ 32
  | _ => True

mutual

/-- What a compiler accepts. There are just as many tags and fields as the integers that count them can hold,
and the states for the payloads of a variant are in a union, where none can have a map as a member. -/
def Ty.WellFormed : Ty → Prop
  | .scalar s | .block s => s.WellFormed
  | .unit | .string => True
  | .variant t ts => ts.length + 1 < 2 ^ 32 ∧ t.flat ∧ allFlat ts ∧ t.WellFormed ∧ AllWellFormed ts
  | .pair a b => a.WellFormed ∧ b.WellFormed
  | .vector t | .typeAlias _ t => t.WellFormed
  | .map k t => k.WellFormed ∧ t.WellFormed
  | .struct ts => AllWellFormed ts
  | .tuple ts => ts.length < 2 ^ 64 ∧ AllWellFormed ts

def AllWellFormed : List Ty → Prop
  | [] => True
  | t :: ts => t.WellFormed ∧ AllWellFormed ts

end

end Hobbes.Net
