import Hobbes.Core.Outcome
import Hobbes.Core.Terms
import Hobbes.Lang.EquivalenceMapping
import Hobbes.Lang.MemoryLayout

/-!
# Unification of types

Types without binders and type-level expressions, as terms. A record's offsets follow from its members' types and are
left out, and so is a primitive type's representation, that goes with its name. Opaque pointers are not those stored
contiguously. A unifier keeps the types that it has made equal in a union-find structure. It checks whether a type is
infinite only when it is asked for the type, and then only on the way through this one.
-/

namespace Hobbes.Lang

open Core EquivalenceMapping

/-! ### Types -/

inductive TyCtor where
  | prim (nm : Bytes)
  | opaquePtr (nm : Bytes)
  | tgen (x : ℕ)
  | tapp
  | fixedArray
  | array
  | variant (ctors : List (Bytes × BitVec 32))
  | record (fields : List Bytes)
  | func
  | tstring (val : Bytes)
  | tlong (x : BitVec 64)
  deriving DecidableEq

abbrev TyTerm := Term TyCtor Bytes

/-- The name that `typeCtorForm` gives to a constructor. -/
def TyCtor.cname : TyCtor → Bytes
  | prim nm => ascii "prim:" ++ nm
  | opaquePtr nm => ascii "ptr:" ++ nm
  | tgen x => ascii ("tgen:" ++ toString x)
  | tapp => ascii "tapp"
  | fixedArray => ascii "farray"
  | array => ascii "array"
  | variant ctors => ascii "variant:" ++ ctors.flatMap fun c => c.1 ++ ascii "=;"
  | record fields => ascii "record:" ++ fields.flatMap fun f => f ++ ascii "=;"
  | func => ascii "->"
  | tstring val => ascii "string:" ++ val
  | tlong x => ascii ("long:" ++ toString x.toInt)

def TyCtor.isTGen : TyCtor → Bool
  | tgen _ => true
  | _ => false

mutual

/-- There are no variables and no `TGen`s. -/
def isMonoSingular : TyTerm → Bool
  | .var _ => false
  | .app c ts => !c.isTGen && areMonoSingular ts

def areMonoSingular : List TyTerm → Bool
  | [] => true
  | t :: ts => isMonoSingular t && areMonoSingular ts

end

mutual

/-- `tvarNames`, in the order of their first occurrences. -/
def typeVars : TyTerm → List Bytes
  | .var nm => [nm]
  | .app _ ts => typesVars ts

def typesVars : List TyTerm → List Bytes
  | [] => []
  | t :: ts => (typeVars t).union (typesVars ts)

end

/-! ### What is kept for a type -/

structure UTypeRec where
  ty : TyTerm
  visited : Bool
  donebc : ℕ

def liftUType (t : TyTerm) : UTypeRec := ⟨t, false, 0⟩

def moreDefinedType (lhs rhs : UTypeRec) : UTypeRec :=
  match lhs.ty, rhs.ty with
  | .var lv, .var rv => if lv < rv then lhs else rhs
  | .var _, .app _ _ => rhs
  | .app _ _, .var _ => lhs
  | .app c ss, .app d ts =>
    if (typeVars (.app c ss)).length < (typeVars (.app d ts)).length then lhs else rhs

instance : Add UTypeRec := ⟨moreDefinedType⟩

structure MonoTypeUnifier where
  m : EquivalenceMapping TyTerm UTypeRec
  bcount : ℕ

/-! ### Unification -/

/-- What is kept at a node. -/
def nodeType (m : EquivalenceMapping TyTerm UTypeRec) (k : TyTerm) : Option TyTerm :=
  (m.nodes.lookup k).map fun n => n.value.ty

def modifyNode (m : EquivalenceMapping TyTerm UTypeRec) (k : TyTerm) (f : UTypeRec → UTypeRec) :
    EquivalenceMapping TyTerm UTypeRec :=
  match m.nodes.lookup k with
  | none => m
  | some n => { m with nodes := m.nodes.insert k { n with value := f n.value } }

namespace MonoTypeUnifier

def empty : MonoTypeUnifier := ⟨EquivalenceMapping.empty, 0⟩

/-- Join what is kept at two nodes. -/
def joinNodeTypes (s : MonoTypeUnifier) (l r : TyTerm) : Outcome MonoTypeUnifier := do
  let lhsv ← Outcome.ofOption (nodeType s.m l)
  let rhsv ← Outcome.ofOption (nodeType s.m r)
  let m ← Outcome.ofOption (join liftUType s.m lhsv rhsv)
  return { s with m := m }

/-- Types that are taken from nodes are references, and read again after the arguments are unified. -/
def unify : ℕ → MonoTypeUnifier → TyTerm → TyTerm → Outcome MonoTypeUnifier
  | 0, _, _, _ => .runsOn
  | fuel + 1, s, lhs, rhs => do
    let (m, l) ← Outcome.ofOption (findNode liftUType s.m lhs)
    let (m, r) ← Outcome.ofOption (findNode liftUType m rhs)
    let lhsv ← Outcome.ofOption (nodeType m l)
    let rhsv ← Outcome.ofOption (nodeType m r)
    let s := { s with m := m }
    if lhsv = rhsv then return s
    else
      match lhsv, rhsv with
      | .app c ss, .app d ts =>
        if ss.length ≠ ts.length ∨ c.cname ≠ d.cname then .throws
        else do
          let s ← Outcome.foldOver (fun s p => unify fuel s p.1 p.2) s (ss.zip ts)
          joinNodeTypes s l r
      | _, _ => joinNodeTypes { s with bcount := s.bcount + 1 } l r

/-- Parts that are substituted into are marked until this is done. -/
def substitute : ℕ → MonoTypeUnifier → TyTerm → Outcome (MonoTypeUnifier × TyTerm)
  | 0, _, _ => .runsOn
  | fuel + 1, s, ty =>
    if isMonoSingular ty then return (s, ty)
    else do
      let (m, k) ← Outcome.ofOption (findNode liftUType s.m ty)
      let uty ← Outcome.ofOption ((m.nodes.lookup k).map Eqsetmem.value)
      if 0 < uty.donebc ∧ uty.donebc = s.bcount then return ({ s with m := m }, uty.ty)
      else if uty.visited then .throws
      else
        match uty.ty with
        | .var v => do
          let (m, u) ← Outcome.ofOption (find liftUType m (.var v))
          return ({ s with m := modifyNode m k fun uty => { uty with ty := u.ty, donebc := s.bcount } }, u.ty)
        | .app c ts => do
          let s := { s with m := modifyNode m k fun uty => { uty with visited := true } }
          let (s, args) ← Outcome.foldOver (fun p t => do
            let (s, u) ← substitute fuel p.1 t
            return (s, p.2 ++ [u])) (s, []) ts
          let m := modifyNode s.m k fun _ => ⟨.app c args, false, s.bcount⟩
          return ({ s with m := m }, .app c args)

end MonoTypeUnifier

def unifiable (fuel : ℕ) (ts0 ts1 : List TyTerm) : Outcome Bool :=
  if ts0.length ≠ ts1.length then return false
  else
    match ts0 with
    | [] => return true
    | t :: _ => Outcome.catchAll (do
        let s ← Outcome.foldOver (fun s p => if p.1 = p.2 then return s else MonoTypeUnifier.unify fuel s p.1 p.2)
          MonoTypeUnifier.empty (ts0.zip ts1)
        let _ ← MonoTypeUnifier.substitute fuel s t
        return true) false

end Hobbes.Lang
