import Hobbes.Lang.MonoType

/-!
# The binary codec of types

`encode` is the visitor `encodeMonoTypeF`, `decodeFrom` the switch over case ids with one reader
for each constructor. Positions in the buffer are `unsigned int`s.
-/

namespace Hobbes.Lang

open Core

/-! ### Writers and readers of plain values -/

def writeBool (b : Bool) : Bytes := [if b then 1 else 0]

def writeInt (x : BitVec 32) : Bytes := leBytes 4 x.toNat

def writeLong (x : BitVec 64) : Bytes := leBytes 8 x.toNat

def writeSize (n : ℕ) : Bytes := leBytes 8 n

def writeString (s : Bytes) : Bytes := writeSize s.length ++ s

/-- A reader at a position of type `unsigned int`. -/
abbrev Read := Reader (2 ^ 32)

def readBool : Read Bool := do
  let x ← Reader.number 1
  return x != 0

def readInt : Read (BitVec 32) := do
  let x ← Reader.number 4
  return BitVec.ofNat 32 x

def readLong : Read (BitVec 64) := do
  let x ← Reader.number 8
  return BitVec.ofNat 64 x

def readSize : Read ℕ := Reader.number 8

def readString : Read Bytes := Reader.counted 8

/-- `read<std::vector<T>>`, and the loops that read members. -/
def readVector {α : Type} (r : Read α) : Read (List α) := do
  let sz ← readSize
  Reader.replicate sz r

/-! ### Types -/

def encodeOpaquePtr (nm : Bytes) (sz : BitVec 32) (scontig : Bool) : Bytes :=
  writeInt 1 ++ writeString nm ++ writeInt sz ++ writeBool scontig

/-- The code of what `type()` returns for an array made of `ty`, from the code of `ty`: see
`encode_array`. -/
def elementCode (ty : MonoType) (code : Bytes) : Bytes :=
  match ty with
  | .opaquePtr nm _ _ => encodeOpaquePtr nm 0 false
  | _ => code

mutual

/-- `encodeMonoTypeF`, each type after its `type_case_id`. -/
def encode : MonoType → Bytes
  | .prim nm none => writeInt 0 ++ writeString nm ++ writeBool false
  | .prim nm (some t) => writeInt 0 ++ writeString nm ++ writeBool true ++ encode t
  | .opaquePtr nm sz scontig => encodeOpaquePtr nm sz scontig
  | .tvar nm => writeInt 2 ++ writeString nm
  | .tgen x => writeInt 3 ++ writeInt x
  | .fixedArray ty len => writeInt 4 ++ elementCode ty (encode ty) ++ encode len
  | .array ty => writeInt 5 ++ elementCode ty (encode ty)
  | .variant ms => writeInt 6 ++ (writeSize ms.length ++ encodeVariant ms)
  | .record ms => writeInt 7 ++ (writeSize ms.length ++ encodeRecord ms)
  | .func aty rty => writeInt 8 ++ encode aty ++ encode rty
  | .existsType tname bty => writeInt 9 ++ writeString tname ++ encode bty
  | .tstring val => writeInt 10 ++ writeString val
  | .tlong x => writeInt 11 ++ writeLong x
  | .tapp f targs => writeInt 12 ++ encode f ++ (writeSize targs.length ++ encodeTypes targs)
  | .recursive tname bty => writeInt 13 ++ writeString tname ++ encode bty
  | .tabs targns b =>
    writeInt 15 ++ (writeSize targns.length ++ targns.flatMap writeString) ++ encode b

def encodeTypes : List MonoType → Bytes
  | [] => []
  | t :: ts => encode t ++ encodeTypes ts

def encodeVariant : List (Variant.Member MonoType) → Bytes
  | [] => []
  | ⟨selector, type, id⟩ :: ms =>
    writeString selector ++ writeInt id ++ encode type ++ encodeVariant ms

def encodeRecord : List (Record.Member MonoType) → Bytes
  | [] => []
  | ⟨field, type, offset⟩ :: ms =>
    writeString field ++ writeInt offset ++ encode type ++ encodeRecord ms

end

section

variable (L : Layout) (decodeFrom : Read MonoType)

def decodePrim : Read MonoType := do
  let pname ← readString
  let hasHRep ← readBool
  if hasHRep then
    let hrep ← decodeFrom
    return .prim pname (some hrep)
  else return .prim pname none

def decodeOpaquePtr : Read MonoType := do
  let s ← readString
  let sz ← readInt
  let sc ← readBool
  return OpaquePtr.make s sz sc

def decodeTGen : Read MonoType := do
  let i ← readInt
  return .tgen i

def decodeTApp : Read MonoType := do
  let f ← decodeFrom
  let args ← readVector decodeFrom
  return .tapp f args

def decodeTVar : Read MonoType := do
  let v ← readString
  return .tvar v

def decodeFixedArr : Read MonoType := do
  let ty ← decodeFrom
  let len ← decodeFrom
  return .fixedArray ty len

def decodeArr : Read MonoType := do
  let ty ← decodeFrom
  return .array ty

/-- The body of the loop of `decodeVariant`. -/
def decodeVariantMember : Read (Variant.Member MonoType) := do
  let ctor ← readString
  let id ← readInt
  let ty ← decodeFrom
  return ⟨ctor, ty, id⟩

def decodeVariant : Read MonoType := do
  let ms ← readVector (decodeVariantMember decodeFrom)
  return .variant ms

/-- The body of the loop of `decodeRecord`. -/
def decodeRecordMember : Read (Record.Member MonoType) := do
  let field ← readString
  let offset ← readInt
  let ty ← decodeFrom
  return ⟨field, ty, offset⟩

def decodeRecord : Read MonoType := do
  let ms ← readVector (decodeRecordMember decodeFrom)
  Reader.ofOption (Record.make L ms)

def decodeFunc : Read MonoType := do
  let aty ← decodeFrom
  let rty ← decodeFrom
  return .func aty rty

def decodeExists : Read MonoType := do
  let tn ← readString
  let aty ← decodeFrom
  return .existsType tn aty

def decodeRecursive : Read MonoType := do
  let tn ← readString
  let rty ← decodeFrom
  return .recursive tn rty

def decodeTString : Read MonoType := do
  let s ← readString
  return .tstring s

def decodeTLong : Read MonoType := do
  let x ← readLong
  return .tlong x

end

/-- The switch over case ids. It has no case for `TAbs`, and the one for type-level expressions is
left out. -/
def decodeCase (L : Layout) (decodeFrom : Read MonoType) : ℕ → Read MonoType
  | 0 => decodePrim decodeFrom
  | 1 => decodeOpaquePtr
  | 2 => decodeTVar
  | 3 => decodeTGen
  | 4 => decodeFixedArr decodeFrom
  | 5 => decodeArr decodeFrom
  | 6 => decodeVariant decodeFrom
  | 7 => decodeRecord L decodeFrom
  | 8 => decodeFunc decodeFrom
  | 9 => decodeExists decodeFrom
  | 10 => decodeTString
  | 11 => decodeTLong
  | 12 => decodeTApp decodeFrom
  | 13 => decodeRecursive decodeFrom
  | _ => Reader.fail

/-- `decodeFrom`, with a bound on how deep types nest. -/
def decodeFrom (L : Layout) : ℕ → Read MonoType
  | 0 => Reader.fail
  | fuel + 1 => do
    let id ← readInt
    decodeCase L (decodeFrom L fuel) id.toNat

/-- `decode`, with the position that it ends at. A type takes more bytes than it is deep. -/
def decode (L : Layout) (bs : Bytes) : Option (MonoType × Fin (2 ^ 32)) :=
  decodeFrom L bs.length bs 0

end Hobbes.Lang
