import Hobbes.Hog.Session

/-!
# Reading transactions

There is a reader for each storable type that is not recursive. It is put together from instances of type classes, of
which the first one that there is for a type is taken: values of a fixed width are read as they are, so are fields that
are stored one behind the other, and anything else is read piece by piece.
-/

namespace Hobbes.Hog

open Core

/-! ### Types -/

inductive PrimTy where
  | bool
  | byte
  | char
  | short
  | int
  | long
  | float
  | double

/-- Records and tuples are products. The unit type is the one without fields. -/
inductive ReadTy where
  | prim (p : PrimTy)
  | array (t : ReadTy)
  | fixedArray (t : ReadTy) (n : ℕ)
  | product (ts : List ReadTy)
  | variant (ts : List ReadTy)
  | aliasOf (t : ReadTy)

def PrimTy.width : PrimTy → ℕ
  | bool | byte | char => 1
  | short => 2
  | int | float => 4
  | long | double => 8

namespace ReadTy

/-- `fixedWidth` of a variant whose constructors have no data. -/
def enumWidth : List ReadTy → Option ℕ
  | [product []] => some 4
  | product [] :: ts => (enumWidth ts).map fun _ => 4
  | _ => none

def fixedWidth : ReadTy → Option ℕ
  | prim p => some p.width
  | fixedArray t n => t.fixedWidth.map fun w => n * w % 2 ^ 64
  | product [] => some 0
  | product [t] => t.fixedWidth
  | variant ts => enumWidth ts
  | _ => none

mutual

def packedWidth : ReadTy → Option ℕ
  | product ts => (product ts).fixedWidth <|> packedWidths ts
  | t => t.fixedWidth

def packedWidths : List ReadTy → Option ℕ
  | [] => some 0
  | t :: ts => do
    let m ← t.packedWidth
    let n ← packedWidths ts
    some ((m + n) % 2 ^ 64)

end

end ReadTy

/-! ### Readers -/

/-- `nothing`, or what was read, and what is left of the transaction. There is no result when it reads bytes that the
transaction does not have. -/
abbrev Reader := Transaction → Option (Option Bytes × Transaction)

namespace Reader

def just : Reader := fun t => some (some [], t)

def nothing : Reader := fun t => some (none, t)

/-- Read on, unless there was nothing. -/
def bind (r : Reader) (k : Bytes → Reader) : Reader := fun t =>
  match r t with
  | some (some bs, t) =>
    match k bs t with
    | some (some bs', t) => some (some (bs ++ bs'), t)
    | x => x
  | x => x

def times : ℕ → Reader → Reader
  | 0, _ => just
  | n + 1, r => r.bind fun _ => times n r

def hstoreUnsafeRead (n : ℕ) : Reader := fun t =>
  if t.i + n ≤ t.data.length then some (some ((t.data.drop t.i).take n), t.skip n) else none

/-- Read if there are as many bytes. -/
def ifCanRead (n : ℕ) (r : Reader) : Reader := fun t => if t.canRead n then r t else some (none, t)

/-- `hstoreRead` at a type of fixed width. -/
def fixed (n : ℕ) : Reader := ifCanRead n (hstoreUnsafeRead n)

/-- What is compared with the bytes that are left is the number of elements. -/
def hstoreReadFixedArray (tn : ℕ) : Reader :=
  (fixed 8).bind fun bs => ifCanRead (leNat bs) (hstoreUnsafeRead (leNat bs * tn % 2 ^ 64))

/-- It is the reader that a session has for such records. -/
lemma fixed_eq (n : ℕ) : fixed n = (Transaction.hstoreReadFixed · n) := rfl

end Reader

open Reader

namespace ReadTy

/-- The instance for a type of fixed width, or else another one. -/
def orElse (t : ReadTy) (read : ℕ → Reader) (r : Reader) : Reader :=
  match t.fixedWidth with
  | some w => read w
  | none => r

mutual

/-- A field. There is no instance for one that is neither of fixed width nor a product. -/
def defRead : ReadTy → Reader
  | product ts => (product ts).orElse hstoreUnsafeRead (hstoreDefReadInto ts)
  | t => t.orElse hstoreUnsafeRead nothing

/-- `hstoreDefReadInto` of a product. -/
def hstoreDefReadInto : List ReadTy → Reader
  | [] => just
  | t :: ts => t.defRead.bind fun _ => hstoreDefReadInto ts

end

mutual

def hstoreRead : ReadTy → Reader
  | prim p => fixed p.width
  | array t =>
    match t.fixedWidth with
    | some w => hstoreReadFixedArray w
    | none => (fixed 8).bind fun bs => times (leNat bs) t.hstoreRead
  | fixedArray t n => (fixedArray t n).orElse fixed (times n t.hstoreRead)
  | product ts =>
    (product ts).orElse fixed <|
      match (product ts).packedWidth with
      | some n => ifCanRead n (hstoreDefReadInto ts)
      | none => hstoreReadInto ts
  | variant ts => (variant ts).orElse fixed ((fixed 4).bind fun bs => hstoreReadVariant ts (leNat bs))
  | aliasOf t => t.hstoreRead

/-- `hstoreReadInto` of a product. -/
def hstoreReadInto : List ReadTy → Reader
  | [] => just
  | product us :: ts => (hstoreReadInto us).bind fun _ => hstoreReadInto ts
  | t :: ts => t.hstoreRead.bind fun _ => hstoreReadInto ts

def hstoreReadVariant : List ReadTy → ℕ → Reader
  | [], _ => nothing
  | t :: _, 0 => t.hstoreRead
  | _ :: ts, n + 1 => hstoreReadVariant ts n

end

end ReadTy

/-! ### Encodings -/

/-- There are `n` pieces of the kind, one behind the other. -/
def Repeats (P : Bytes → Prop) : ℕ → Bytes → Prop
  | 0, bs => bs = []
  | n + 1, bs => ∃ a b, bs = a ++ b ∧ P a ∧ Repeats P n b

/-- A `bool` is 0 or 1, and other values may be any bytes. -/
def PrimTy.Encodes (p : PrimTy) (bs : Bytes) : Prop :=
  bs.length = p.width ∧ (p = bool → leNat bs ≤ 1)

namespace ReadTy

mutual

/-- The bytes are those of a value of the type. -/
def Encodes : ReadTy → Bytes → Prop
  | prim p, bs => p.Encodes bs
  | array t, bs => ∃ n bs', bs = leBytes 8 n ++ bs' ∧ n < 2 ^ 64 ∧ Repeats t.Encodes n bs'
  | fixedArray t n, bs => Repeats t.Encodes n bs
  | product ts, bs => EncodesAll ts bs
  | variant ts, bs => ∃ n bs', bs = leBytes 4 n ++ bs' ∧ EncodesCtor ts n bs'
  | aliasOf t, bs => t.Encodes bs

def EncodesAll : List ReadTy → Bytes → Prop
  | [], bs => bs = []
  | t :: ts, bs => ∃ a b, bs = a ++ b ∧ t.Encodes a ∧ EncodesAll ts b

def EncodesCtor : List ReadTy → ℕ → Bytes → Prop
  | [], _, _ => False
  | t :: _, 0, bs => t.Encodes bs
  | _ :: ts, n + 1, bs => EncodesCtor ts n bs

end

mutual

/-- The bytes that a value takes in memory, or less. -/
def size : ReadTy → ℕ
  | prim p => p.width
  | array _ => 8
  | fixedArray t n => n * t.size
  | product ts => sizes ts
  | variant _ => 4
  | aliasOf t => t.size

def sizes : List ReadTy → ℕ
  | [] => 0
  | t :: ts => t.size + sizes ts

end

mutual

/-- The values of a type fit in memory, and so do the values they are made of. -/
def Storable : ReadTy → Prop
  | prim _ => True
  | array t => t.Storable
  | fixedArray t n => t.Storable ∧ n * t.size < 2 ^ 63
  | product ts => AllStorable ts ∧ sizes ts < 2 ^ 63
  | variant ts => AllStorable ts
  | aliasOf t => t.Storable

def AllStorable : List ReadTy → Prop
  | [] => True
  | t :: ts => t.Storable ∧ AllStorable ts

end

end ReadTy

end Hobbes.Hog
