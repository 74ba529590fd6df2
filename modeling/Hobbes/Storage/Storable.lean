import Mathlib.Data.List.Basic
import Hobbes.Core.Calls
import Hobbes.Core.Codec

/-!
# Storable types

`store<T>` has a `size` and a `write` for every way to build a type. Recursive types go through a
function pointer that belongs to the thread: `recursive<T>` points it at itself while it goes over
its value, and puts back what was there.
-/

namespace Hobbes.Storage

open Core

/-- The types with a `store`. A `prim` is any type that is stored by `memcpy`: primitives, packed
structs and enumerations. -/
inductive Ty where
  | prim (n : ℕ)
  | unit
  | cstring
  | string
  | vector (t : Ty)
  | array (t : Ty) (n : ℕ)
  | pair (u v : Ty)
  | tuple (ts : List Ty)
  | struct (ts : List Ty)
  | variant (ts : List Ty)
  | alias (t : Ty)
  | recursion
  | recursive (t : Ty)

/-- `sizeof(T)`, where `store<T>` has `can_memcpy`. -/
def Ty.canMemcpy : Ty → Option ℕ
  | .prim n => some n
  | _ => none

mutual

/-- Whether two types are the same one. -/
def Ty.same : Ty → Ty → Bool
  | .prim m, .prim n => m == n
  | .unit, .unit | .cstring, .cstring | .string, .string | .recursion, .recursion => true
  | .vector t, .vector u | .alias t, .alias u | .recursive t, .recursive u => t.same u
  | .array t m, .array u n => t.same u && m == n
  | .pair t₁ t₂, .pair u₁ u₂ => t₁.same u₁ && t₂.same u₂
  | .tuple ts, .tuple us | .struct ts, .struct us | .variant ts, .variant us => Ty.sames ts us
  | _, _ => false

def Ty.sames : List Ty → List Ty → Bool
  | [], [] => true
  | t :: ts, u :: us => t.same u && Ty.sames ts us
  | _, _ => false

end

mutual

/-- The values of a type. `c` is what `recursion` stands for: the innermost recursive type around
it, a `recursion` pointing to another value of that type. -/
inductive Value : Option Ty → Ty → Type where
  | prim {c : Option Ty} {n : ℕ} (bytes : Bytes) (h : bytes.length = n) : Value c (.prim n)
  | unit {c : Option Ty} : Value c .unit
  | cstring {c : Option Ty} (s : Bytes) (h : 0 ∉ s) : Value c .cstring
  | string {c : Option Ty} (s : Bytes) : Value c .string
  | vector {c : Option Ty} {t : Ty} {n : ℕ} (xs : Values c (List.replicate n t)) :
      Value c (.vector t)
  | array {c : Option Ty} {t : Ty} {n : ℕ} (xs : Values c (List.replicate n t)) :
      Value c (.array t n)
  | pair {c : Option Ty} {u v : Ty} (first : Value c u) (second : Value c v) : Value c (.pair u v)
  | tuple {c : Option Ty} {ts : List Ty} (xs : Values c ts) : Value c (.tuple ts)
  | struct {c : Option Ty} {ts : List Ty} (xs : Values c ts) : Value c (.struct ts)
  | variant {c : Option Ty} {ts : List Ty} (tag : Fin ts.length) (x : Value c (ts.get tag)) :
      Value c (.variant ts)
  /-- a variant that no constructor was applied for: its tag is `COUNT` -/
  | count {c : Option Ty} {ts : List Ty} : Value c (.variant ts)
  | alias {c : Option Ty} {t : Ty} (value : Value c t) : Value c (.alias t)
  | recursion {t : Ty} (value : Value (some t) (.recursive t)) : Value (some t) .recursion
  | recursive {c : Option Ty} {t : Ty} (value : Value (some t) t) : Value c (.recursive t)

inductive Values : Option Ty → List Ty → Type where
  | nil {c : Option Ty} : Values c []
  | cons {c : Option Ty} {t : Ty} {ts : List Ty} (x : Value c t) (xs : Values c ts) :
      Values c (t :: ts)

end

/-- The memory that elements with `can_memcpy` take, one behind the other. -/
def Values.raw {c : Option Ty} {ts : List Ty} : Values c ts → Bytes
  | .nil => []
  | .cons (.prim bytes _) xs => bytes ++ xs.raw
  | .cons _ xs => xs.raw

/-- The type whose `recSize` or `recWrite` a function pointer points to. -/
abbrev RecF := Option Ty

/-- Whether a call through the pointer is one for values of `recursive<T>`. -/
def RecF.calls (f : RecF) (t : Ty) : Bool := f.any (Ty.same · t)

/-! ### Sizes -/

mutual

/-- `store<T>::size`, with the thread's `sizeF`. A call through a null pointer, or through one for
another type, has no result. -/
def Value.size {c : Option Ty} {t : Ty} : Value c t → StateT RecF Option UInt64
  | .prim (n := n) _ _ => pure (.ofNat n)
  | .unit => pure 0
  | .cstring s _ => pure (8 + .ofNat (s.takeWhile (· != 0)).length)
  | .string s => pure (8 + .ofNat s.length)
  | .vector (t := t) (n := n) xs =>
    match t.canMemcpy with
    | some k => pure (8 + .ofNat n * .ofNat k)
    | none => xs.sizeFrom 8
  | .array (t := t) (n := n) xs =>
    match t.canMemcpy with
    | some k => pure (.ofNat k * .ofNat n)
    | none => xs.sizeFrom 0
  | .pair first second => do
    let m ← first.size
    let n ← second.size
    pure (m + n)
  | .tuple xs => xs.size
  | .struct xs => xs.sizeFrom 0
  | .variant _ x => do
    let n ← x.size
    pure (4 + n)
  | .count => pure 0
  | .alias value => value.size
  | .recursion (t := t) value => do
    let sf ← get
    if sf.calls t then value.size else failure
  | .recursive (t := t) value => do
    let sf ← get
    set (some t)
    let r ← value.size
    set sf
    pure r

/-- The sum of the sizes, from the right: tuples and `serialize_values`. -/
def Values.size {c : Option Ty} {ts : List Ty} : Values c ts → StateT RecF Option UInt64
  | .nil => pure 0
  | .cons x xs => do
    let m ← x.size
    let n ← xs.size
    pure (m + n)

/-- The sum of the sizes, added to `s` one after the other: vectors, arrays and structs. -/
def Values.sizeFrom {c : Option Ty} {ts : List Ty} :
    Values c ts → UInt64 → StateT RecF Option UInt64
  | .nil, s => pure s
  | .cons x xs, s => do
    let n ← x.size
    xs.sizeFrom (s + n)

end

/-! ### Writes -/

/-- What the caller of a pipe asks of it. -/
inductive PipeCall where
  | write (src : Bytes)
  | commit

/-- A program over a pipe, with the thread's `writeF`. -/
abbrev WriteM := StateT RecF (Calls PipeCall)

/-- `p.write(src, sz)`. -/
def WriteM.write (src : Bytes) : WriteM Bool := fun wf => .call (.write src) fun ok => .ret (ok, wf)

def WriteM.stuck : WriteM Bool := fun _ => .stuck

mutual

/-- `store<T>::write`. -/
def Value.write {c : Option Ty} {t : Ty} : Value c t → WriteM Bool
  | .prim bytes _ => .write bytes
  | .unit => pure true
  | .cstring s _ => do
    let n := s.takeWhile (· != 0)
    if ← .write (leBytes 8 n.length) then .write n else pure false
  | .string s => do
    if ← .write (leBytes 8 s.length) then .write s else pure false
  | .vector (t := t) (n := n) xs => do
    if ← .write (leBytes 8 n) then
      match t.canMemcpy with
      | some _ => .write xs.raw
      | none => xs.write
    else pure false
  | .array (t := t) xs =>
    match t.canMemcpy with
    | some _ => .write xs.raw
    | none => xs.write
  | .pair first second => do
    if ← first.write then second.write else pure false
  | .tuple xs | .struct xs => xs.write
  | .variant tag x => do
    if ← .write (leBytes 4 tag) then x.write else pure false
  | .count => pure false
  | .alias value => value.write
  | .recursion (t := t) value => do
    let wf ← get
    if wf.calls t then value.write else .stuck
  | .recursive (t := t) value => do
    let wf ← get
    set (some t)
    let r ← value.write
    set wf
    pure r

/-- Write the values in order, up to the first that fails. -/
def Values.write {c : Option Ty} {ts : List Ty} : Values c ts → WriteM Bool
  | .nil => pure true
  | .cons x xs => do
    if ← x.write then xs.write else pure false

end

end Hobbes.Storage
