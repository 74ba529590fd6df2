import Hobbes.Core.PrefixTree
import Hobbes.Lang.TypeOrder
import Hobbes.Lang.UnifierCopies

/-!
# Type maps

A map from sequences of types to values, as a prefix tree in which types are ordered by `MonoTypeLT`. It is searched for
sequences that can be unified with a given one: where a type of this is known by what has been bound before, by moving
to this type, and else by trying every type, each with a copy of the unifier. What is thrown while a type is tried is
caught, and the search goes on with the next one.
-/

namespace Hobbes.Lang

open Core

abbrev TypeMap (V : Type) := PrefixTree TyTerm V

namespace TypeMap

variable {V α : Type} (off : List Bytes → List TyTerm → ℕ → ℤ) (o : KeyOrder)

def insert (mts : List TyTerm) (v : V) (d : TypeMap V) : TypeMap V := PrefixTree.insert (monoTypeOrd off) mts v d

def lookup (mts : List TyTerm) (d : TypeMap V) : Option V := PrefixTree.lookup (monoTypeOrd off) mts d

/-- A map that sequences have been inserted into, one after the other. -/
def ofInsertions (ins : List (List TyTerm × V)) : TypeMap V :=
  ins.foldl (fun d p => insert off p.1 p.2 d) PrefixTree.empty

/-- What is done with one key: the copy is made first, then the key is read, and then both types are unified. -/
def tryKey (fuel : ℕ) (mty : TyTerm) (key : MonoTypeUnifier → Outcome (MonoTypeUnifier × Option TyTerm))
    (rest : MonoTypeUnifier → Outcome α) (failed : α) (u : MonoTypeUnifier) : Outcome (MonoTypeUnifier × α) := do
  let (u, pu) ← Outcome.ofOption (u.copy o)
  let (u, kty) ← key u
  match kty with
  | none => return (u, failed)
  | some kty => do
    let a ← Outcome.catchAll (do rest (← pu.unify fuel mty kty)) failed
    return (u, a)

/-- One round of the loops of `findMatches` and `findBidiMatches`. -/
def collect (fuel : ℕ) (mty : TyTerm) (key : TyTerm → MonoTypeUnifier → Outcome (MonoTypeUnifier × Option TyTerm))
    (rest : MonoTypeUnifier → TypeMap V → Outcome (List V)) (s : MonoTypeUnifier × List V)
    (kp : TyTerm × TypeMap V) : Outcome (MonoTypeUnifier × List V) := do
  let (u, vs) ← tryKey o fuel mty (key kp.1) (fun pu => rest pu kp.2) [] s.1
  return (u, s.2 ++ vs)

/-- `hasMatch`, from a node on. -/
def hasMatchAt (fuel : ℕ) : List TyTerm → MonoTypeUnifier → TypeMap V → Outcome Bool
  | [], _, _ => return true
  | mt :: mts, u, p => do
    let (u, mty) ← u.substitute fuel mt
    if isMonoSingular mty then
      match p.moveTo (monoTypeOrd off) mty with
      | none => return false
      | some q => hasMatchAt fuel mts u q
    else do
      let s ← Outcome.foldOver (fun s kp =>
        if s.2 then return s
        else tryKey o fuel mty (fun u => return (u, some kp.1)) (fun pu => hasMatchAt fuel mts pu kp.2) false s.1)
        (u, false) p.children
      return s.2

def findMatches (fuel : ℕ) : List TyTerm → MonoTypeUnifier → TypeMap V → Outcome (List V)
  | [], _, p => return p.value.toList
  | mt :: mts, u, p => do
    let (u, mty) ← u.substitute fuel mt
    if isMonoSingular mty then
      match p.moveTo (monoTypeOrd off) mty with
      | none => return []
      | some q => findMatches fuel mts u q
    else do
      let s ← Outcome.foldOver
        (collect o fuel mty (fun kty u => return (u, some kty)) fun pu q => findMatches fuel mts pu q)
        (u, []) p.children
      return s.2

def findBidiMatches (fuel : ℕ) : List TyTerm → MonoTypeUnifier → TypeMap V → Outcome (List V)
  | [], _, p => return p.value.toList
  | mt :: mts, u, p => do
    let (u, mty) ← u.substitute fuel mt
    let s ← Outcome.foldOver
      (collect o fuel mty (fun kty u => u.substituteUpTo fuel kty) fun pu q => findBidiMatches fuel mts pu q)
      (u, []) p.children
    return s.2

/-- Whether there is a sequence that can be unified with this one. -/
def hasMatch (fuel : ℕ) (d : TypeMap V) (mts : List TyTerm) : Outcome Bool :=
  hasMatchAt off o fuel mts MonoTypeUnifier.empty d

/-- `matches`. -/
def allMatches (fuel : ℕ) (d : TypeMap V) (mts : List TyTerm) : Outcome (List V) :=
  findMatches off o fuel mts MonoTypeUnifier.empty d

/-- Variables of the map's sequences are bound as well. -/
def bidimatches (fuel : ℕ) (d : TypeMap V) (mts : List TyTerm) : Outcome (List V) :=
  findBidiMatches o fuel mts MonoTypeUnifier.empty d

end TypeMap

end Hobbes.Lang
