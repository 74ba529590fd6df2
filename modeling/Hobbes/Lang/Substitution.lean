import Hobbes.Lang.MonoType

/-!
# Substitution in types

A substitution is applied to what it puts in place of a variable as well, so that it may not end: `n`
bounds how deep it goes. Where it meets a record, the record is made again.
-/

namespace Hobbes.Lang

open Core

abbrev TypeSubst := Bytes → Option MonoType

/-- `substitution`: of two types for one name the last one counts. -/
def substitution (ns : List Bytes) (ts : List MonoType) : TypeSubst := fun nm =>
  ((ns.zip ts).reverse.find? fun p => p.1 = nm).map Prod.snd

/-- `cuts.erase`. -/
def TypeSubst.erase (s : TypeSubst) (nm : Bytes) : TypeSubst := fun nm' =>
  if nm' = nm then none else s nm'

/-- `substituteF(true, s)`. -/
def substituteF (L : Layout) : ℕ → TypeSubst → MonoType → Option MonoType
  | 0, _, _ => none
  | _ + 1, _, .prim nm t => some (.prim nm t)
  | _ + 1, _, .opaquePtr nm sz scontig => some (OpaquePtr.make nm sz scontig)
  | n + 1, s, .tvar nm =>
    match s nm with
    | some t => substituteF L n s t
    | none => some (.tvar nm)
  | _ + 1, _, .tgen x => some (.tgen x)
  | n + 1, s, .tabs targns b => (substituteF L n s b).map (.tabs targns)
  | n + 1, s, .tapp f targs => do
    let f ← substituteF L n s f
    let targs ← targs.mapM (substituteF L n s)
    return .tapp f targs
  | n + 1, s, .fixedArray ty len => do
    let ty ← substituteF L n s (normIfOpaquePtr ty)
    let len ← substituteF L n s len
    return .fixedArray ty len
  | n + 1, s, .array ty => (substituteF L n s (normIfOpaquePtr ty)).map .array
  | n + 1, s, .variant ms => do
    let ms ← ms.mapM fun m => (substituteF L n s m.type).map fun t => { m with type := t }
    return .variant ms
  | n + 1, s, .record ms => do
    let ms ← ms.mapM fun m => (substituteF L n s m.type).map fun t => { m with type := t }
    Record.make L ms
  | n + 1, s, .func aty rty => do
    let aty ← substituteF L n s aty
    let rty ← substituteF L n s rty
    return .func aty rty
  | n + 1, s, .existsType tname bty =>
    (substituteF L n (s.erase tname) bty).map (.existsType tname)
  | n + 1, s, .recursive tname bty => (substituteF L n (s.erase tname) bty).map (.recursive tname)
  | _ + 1, _, .tstring val => some (.tstring val)
  | _ + 1, _, .tlong x => some (.tlong x)

def substitute (L : Layout) (n : ℕ) (s : TypeSubst) (t : MonoType) : Option MonoType :=
  if t.isMonoSingular then some t else substituteF L n s t

end Hobbes.Lang
