import Mathlib.Tactic.Common
import Hobbes.Core.Resumable
import Hobbes.Core.Stream

/-!
# Network values

How the client library sends and receives values. An instance of the template `io` is an `Io`, and a template
with parameters becomes a function of the instances for them. A value of a scalar type is its memory.
-/

namespace Hobbes.Net

open Core

/-- The memory of a scalar of `n` bytes. -/
abbrev Mem (n : ℕ) := Fin n → UInt8

/-- Bytes are received to an offset. -/
def Mem.overwrite {n : ℕ} (x : Mem n) (o : ℕ) (bs : Bytes) : Mem n :=
  fun i => if i.1 < o then x i else (bs[i.1 - o]?).getD (x i)

def Mem.toNat {n : ℕ} (x : Mem n) : ℕ := leNat (List.ofFn x)

/-- `x.resize(n)`, with `d` for the new elements. -/
def resize {α : Type} (n : ℕ) (d : α) (x : List α) : List α :=
  x.take n ++ List.replicate (n - x.length) d

/-- The members of `io<T>`, with the values that a `T` can have and the value `T()`. No container has 2⁶³
elements. -/
structure Io (α : Type) where
  Valid : α → Prop
  dflt : α
  write : α → Bytes
  read : α → Stream α
  /-- `async_read_state` -/
  State : Type
  initState : State
  prepare : State → State
  accum : Machine (State × α)

/-- The members of `io<T>` for the fields of a tuple or of a struct, one at a time. -/
structure Fields (ρ : Type) where
  Valid : ρ → Prop
  dflt : ρ
  write : ρ → Bytes
  read : ρ → Stream ρ
  count : ℕ
  States : Type
  initStates : States
  prepare : States → States
  accumAt : ℕ → Machine (States × ρ)

/-- The members of `io<T>` for the payload of a variant, which goes with one of its tags. -/
structure Ctors (γ : Type) where
  Valid : γ → Prop
  tag : γ → ℕ
  write : γ → Bytes
  /-- A new payload is read. -/
  read : ℕ → Option (Stream γ)
  /-- `PayloadState` -/
  State : Type
  /-- A new payload and a new state that is prepared. -/
  start : ℕ → Option (State × γ)
  accum : Machine (State × γ)

/-- A receive with nothing to receive returns 0, as it does when the connection is closed. -/
def recvDataPartial (sz k : ℕ) (inp : Bytes) : Option (Bytes × Bytes) :=
  if sz = 0 then none else some (inp.take (min k sz), inp.drop (min k sz))

namespace Io

variable {α β γ κ ρ : Type}

/-! ### Scalars -/

def accumScalar (n : ℕ) : Machine (ℕ × Mem n) := fun (o, x) k inp => do
  let (bs, inp) ← recvDataPartial (n - o) k inp
  some (o + bs.length == n, (o + bs.length, x.overwrite o bs), inp)

/-- The primitive types and the enumerations. -/
def scalar (n : ℕ) (valid : Mem n → Prop) : Io (Mem n) where
  Valid := valid
  dflt _ := 0
  write := List.ofFn
  read x := do
    let bs ← Stream.recv n
    return x.overwrite 0 bs
  State := ℕ
  initState := 0
  prepare _ := 0
  accum := accumScalar n

def writeSize (n : ℕ) : Bytes := leBytes 8 n

def readSize : Stream ℕ := Stream.number Stream.recv 8

def unit : Io Unit where
  Valid _ := True
  dflt := ()
  write _ := []
  read x := pure x
  State := Unit
  initState := ()
  prepare o := o
  accum s _ inp := some (true, s, inp)

/-! ### Strings and vectors of scalars -/

/-- A length is received into a field that is then used for something else. -/
structure BlockState where
  readLen : Bool
  lenS : ℕ
  len : Mem 8
  bytesRead : ℕ
  byteLen : ℕ

def accumBlock (size : ℕ) : Machine (BlockState × Bytes) := fun (o, x) k inp =>
  if o.readLen then do
    let (done, (lenS, len), inp) ← accumScalar 8 (o.lenS, o.len) k inp
    if done then
      let byteLen := size * len.toNat
      let o := { o with lenS, len, bytesRead := 0, byteLen, readLen := false }
      some (o.bytesRead == o.byteLen, (o, resize byteLen 0 x), inp)
    else some (false, ({ o with lenS, len }, x), inp)
  else do
    let (bs, inp) ← recvDataPartial (o.byteLen - o.bytesRead) k inp
    let bytesRead := o.bytesRead + bs.length
    some (bytesRead == o.byteLen,
      ({ o with bytesRead }, x.take o.bytesRead ++ bs ++ x.drop bytesRead), inp)

/-- The elements of a vector in its memory. -/
def elements (size : ℕ) (x : Bytes) : List (Mem size) :=
  (List.range (x.length / size)).map fun i j => (x[size * i + j]?).getD 0

/-- The memory of a vector whose elements have `size` bytes. Just as many bytes are received as there are
elements. -/
def block (size : ℕ) (valid : Mem size → Prop) : Io Bytes where
  Valid x := size ∣ x.length ∧ x.length < 2 ^ 63 ∧ ∀ e ∈ elements size x, valid e
  dflt := []
  write x := writeSize (x.length / size) ++ x
  read x := do
    let n ← readSize
    let bs ← Stream.recv n
    return bs ++ (resize (size * n) 0 x).drop n
  State := BlockState
  initState := ⟨true, 0, fun _ => 0, 0, 0⟩
  prepare o := { o with readLen := true, lenS := 0 }
  accum := accumBlock size

def string : Io Bytes := block 1 fun _ => True

/-! ### Pairs -/

structure PairState (σ τ : Type) where
  readFirst : Bool
  fstState : σ
  sndState : τ

def accumPair {σ τ : Type} (f : Machine (σ × α)) (g : Machine (τ × β)) :
    Machine (PairState σ τ × α × β) := fun (o, x) k inp =>
  if o.readFirst then do
    let (done, (fstState, fst), inp) ← f (o.fstState, x.1) k inp
    some (false, ({ o with fstState, readFirst := !done }, fst, x.2), inp)
  else do
    let (done, (sndState, snd), inp) ← g (o.sndState, x.2) k inp
    some (done, ({ o with sndState }, x.1, snd), inp)

def pair (a : Io α) (b : Io β) : Io (α × β) where
  Valid x := a.Valid x.1 ∧ b.Valid x.2
  dflt := (a.dflt, b.dflt)
  write x := a.write x.1 ++ b.write x.2
  read x := do
    let fst ← a.read x.1
    let snd ← b.read x.2
    return (fst, snd)
  State := PairState a.State b.State
  initState := ⟨true, a.initState, b.initState⟩
  prepare o := ⟨true, a.prepare o.fstState, b.prepare o.sndState⟩
  accum := accumPair a.accum b.accum

/-! ### Other vectors -/

structure VectorState (σ : Type) where
  readLen : Bool
  lenS : ℕ
  len : Mem 8
  idx : ℕ
  elemS : σ

def accumVector (a : Io α) : Machine (VectorState a.State × List α) := fun (o, x) k inp =>
  if o.readLen then do
    let (done, (lenS, len), inp) ← accumScalar 8 (o.lenS, o.len) k inp
    if done then
      let x := resize len.toNat a.dflt x
      let o := { o with lenS, len, idx := 0, readLen := false, elemS := a.prepare o.elemS }
      some (o.idx == x.length, (o, x), inp)
    else some (false, ({ o with lenS, len }, x), inp)
  else do
    let e ← x[o.idx]?
    let (done, (elemS, e), inp) ← a.accum (o.elemS, e) k inp
    let x := x.set o.idx e
    if done then
      some (o.idx + 1 == x.length, ({ o with idx := o.idx + 1, elemS := a.prepare elemS }, x), inp)
    else some (o.idx == x.length, ({ o with elemS }, x), inp)

/-- Read into the elements in order. -/
def readElems (a : Io α) : List α → Stream (List α)
  | [] => pure []
  | x :: xs => do
    let x ← a.read x
    let xs ← readElems a xs
    return x :: xs

def vector (a : Io α) : Io (List α) where
  Valid x := x.length < 2 ^ 63 ∧ ∀ e ∈ x, a.Valid e
  dflt := []
  write x := writeSize x.length ++ x.flatMap a.write
  read x := do
    let n ← readSize
    readElems a (resize n a.dflt x)
  State := VectorState a.State
  initState := ⟨true, 0, fun _ => 0, 0, a.initState⟩
  prepare o := { o with readLen := true, lenS := 0 }
  accum := accumVector a

/-! ### Maps -/

/-- `m[k] = t` for the entries of a map in the order `less`. -/
def assign (less : κ → κ → Bool) (k : κ) (t : α) : List (κ × α) → List (κ × α)
  | [] => [(k, t)]
  | e :: m =>
    if less k e.1 then (k, t) :: e :: m
    else if less e.1 k then e :: assign less k t m
    else (e.1, t) :: m

inductive ReadS where
  | lenS
  | kS
  | tS

structure MapState (σ τ κ α : Type) where
  readS : ReadS
  lenS : ℕ
  lenBytes : Mem 8
  len : ℕ
  kS : σ
  k : κ
  tS : τ
  t : α

def accumMap (less : κ → κ → Bool) (a : Io κ) (b : Io α) :
    Machine (MapState a.State b.State κ α × List (κ × α)) := fun (o, x) n inp =>
  match o.readS with
  | .lenS => do
    let (done, (lenS, lenBytes), inp) ← accumScalar 8 (o.lenS, o.lenBytes) n inp
    if done then
      let len := lenBytes.toNat
      some (len == 0, ({ o with lenS, lenBytes, len, readS := .kS, kS := a.prepare o.kS }, x), inp)
    else some (false, ({ o with lenS, lenBytes }, x), inp)
  | .kS => do
    let (done, (kS, k), inp) ← a.accum (o.kS, o.k) n inp
    if done then
      some (o.len == 0, ({ o with kS, k, readS := .tS, tS := b.prepare o.tS }, x), inp)
    else some (o.len == 0, ({ o with kS, k }, x), inp)
  | .tS => do
    let (done, (tS, t), inp) ← b.accum (o.tS, o.t) n inp
    if done then
      let len := o.len - 1
      some (len == 0, ({ o with tS, t, len, readS := .kS, kS := a.prepare o.kS },
        assign less o.k t x), inp)
    else some (o.len == 0, ({ o with tS, t }, x), inp)

/-- Read entries into a map, a key and a value being new for each of them. -/
def readEntries (less : κ → κ → Bool) (a : Io κ) (b : Io α) :
    ℕ → List (κ × α) → Stream (List (κ × α))
  | 0, x => pure x
  | n + 1, x => do
    let k ← a.read a.dflt
    let t ← b.read b.dflt
    readEntries less a b n (assign less k t x)

/-- The keys of a map are in the order of the container. -/
def map (less : κ → κ → Bool) (a : Io κ) (b : Io α) : Io (List (κ × α)) where
  Valid x := x.length < 2 ^ 63 ∧ (∀ e ∈ x, a.Valid e.1 ∧ b.Valid e.2) ∧
    x.Pairwise fun e e' => less e.1 e'.1 ∧ ¬ less e'.1 e.1
  dflt := []
  write x := writeSize x.length ++ x.flatMap fun e => a.write e.1 ++ b.write e.2
  read x := do
    let n ← readSize
    readEntries less a b n x
  State := MapState a.State b.State κ α
  initState := ⟨.lenS, 0, fun _ => 0, 0, a.initState, a.dflt, b.initState, b.dflt⟩
  prepare o := { o with readS := .lenS, lenS := 0 }
  accum := accumMap less a b

/-! ### Structs and tuples -/

/-- The state counts the fields from 1. -/
def struct (fs : Fields ρ) : Io ρ where
  Valid := fs.Valid
  dflt := fs.dflt
  write := fs.write
  read := fs.read
  State := ℕ × fs.States
  initState := (0, fs.initStates)
  prepare o := (1, fs.prepare o.2)
  accum := fun ((idx, o), x) k inp =>
    if 1 ≤ idx ∧ idx ≤ fs.count then do
      let (done, (o, x), inp) ← fs.accumAt (idx - 1) (o, x) k inp
      let idx := if done then idx + 1 else idx
      some (idx == fs.count + 1, ((idx, o), x), inp)
    else some (idx == fs.count + 1, ((idx, o), x), inp)

/-- The count of the fields that are read has 64 bits, and no tuple has more fields. -/
def tuple (fs : Fields ρ) : Io ρ where
  Valid x := fs.count < 2 ^ 64 ∧ fs.Valid x
  dflt := fs.dflt
  write := fs.write
  read := fs.read
  State := BitVec 64 × fs.States
  initState := (0, fs.initStates)
  prepare o := (0, fs.prepare o.2)
  accum := fun ((i, o), x) k inp => do
    let (done, (o, x), inp) ← fs.accumAt i.toNat (o, x) k inp
    let i := if done then i + 1 else i
    some (i == BitVec.ofNat 64 fs.count, ((i, o), x), inp)

/-! ### Variants -/

structure VariantState (σ : Type) where
  readTag : Bool
  tagS : ℕ
  tag : Mem 4
  payloadS : Option σ

/-- A tag that no constructor has is never read behind. -/
def accumVariant (cs : Ctors γ) : Machine (VariantState cs.State × Option γ) := fun (o, x) k inp =>
  if o.readTag then do
    let (done, (tagS, tag), inp) ← accumScalar 4 (o.tagS, o.tag) k inp
    if done then
      let new := cs.start tag.toNat
      some (false, (⟨false, tagS, tag, new.map Prod.fst⟩, new.map Prod.snd), inp)
    else some (false, ({ o with tagS, tag }, x), inp)
  else
    match o.payloadS, x with
    | some payloadS, some p => do
      let (done, (payloadS, p), inp) ← cs.accum (payloadS, p) k inp
      some (done, ({ o with payloadS := some payloadS }, some p), inp)
    | _, _ => some (false, (o, x), inp)

/-- A variant is made with the tag `COUNT` and without a payload. -/
def variant (cs : Ctors γ) : Io (Option γ) where
  Valid x := ∃ p, x = some p ∧ cs.tag p < 256 ^ 4 ∧ cs.Valid p
  dflt := none
  write x := x.elim [] fun p => leBytes 4 (cs.tag p) ++ cs.write p
  read _ := do
    let tag ← Stream.number Stream.recv 4
    (cs.read tag).elim (pure none) fun r => do
      let p ← r
      return some p
  State := VariantState cs.State
  initState := ⟨true, 0, fun _ => 0, none⟩
  prepare o := { o with readTag := true, tagS := 0 }
  accum := accumVariant cs

end Io

namespace Fields

variable {α ρ : Type}

/-- There is nothing left to receive. -/
def nil : Fields Unit where
  Valid _ := True
  dflt := ()
  write _ := []
  read x := pure x
  count := 0
  States := Unit
  initStates := ()
  prepare o := o
  accumAt _ s _ inp := some (true, s, inp)

def cons (a : Io α) (fs : Fields ρ) : Fields (α × ρ) where
  Valid x := a.Valid x.1 ∧ fs.Valid x.2
  dflt := (a.dflt, fs.dflt)
  write x := a.write x.1 ++ fs.write x.2
  read x := do
    let fst ← a.read x.1
    let snd ← fs.read x.2
    return (fst, snd)
  count := fs.count + 1
  States := a.State × fs.States
  initStates := (a.initState, fs.initStates)
  prepare o := (a.prepare o.1, fs.prepare o.2)
  accumAt
    | 0, (o, x), k, inp => do
      let (done, (fst, y), inp) ← a.accum (o.1, x.1) k inp
      some (done, ((fst, o.2), (y, x.2)), inp)
    | i + 1, (o, x), k, inp => do
      let (done, (snd, y), inp) ← fs.accumAt i (o.2, x.2) k inp
      some (done, ((o.1, snd), (x.1, y)), inp)

end Fields

namespace Ctors

variable {α γ : Type}

def nil : Ctors Empty where
  Valid _ := True
  tag := Empty.elim
  write := Empty.elim
  read _ := none
  State := Empty
  start _ := none
  accum s := s.1.elim

def cons (a : Io α) (cs : Ctors γ) : Ctors (α ⊕ γ) where
  Valid := Sum.elim a.Valid cs.Valid
  tag := Sum.elim (fun _ => 0) fun p => cs.tag p + 1
  write := Sum.elim a.write cs.write
  read
    | 0 => some do
      let x ← a.read a.dflt
      return .inl x
    | i + 1 => (cs.read i).map fun r => do
      let p ← r
      return .inr p
  State := a.State ⊕ cs.State
  start
    | 0 => some (.inl (a.prepare a.initState), .inl a.dflt)
    | i + 1 => (cs.start i).map fun (o, p) => (.inr o, .inr p)
  accum
    | (.inl o, .inl x), k, inp => do
      let (done, (o, x), inp) ← a.accum (o, x) k inp
      some (done, (.inl o, .inl x), inp)
    | (.inr o, .inr p), k, inp => do
      let (done, (o, p), inp) ← cs.accum (o, p) k inp
      some (done, (.inr o, .inr p), inp)
    | _, _, _ => none

end Ctors

end Hobbes.Net
