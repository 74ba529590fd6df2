import Hobbes.Core.Derivations
import Hobbes.Lang.Constraints
import Hobbes.Lang.TypeMapMatches
import Mathlib.Data.List.Sort

/-!
# Type classes

A class keeps its ground instances and its instance generators in type maps. A constraint without variables is satisfied
by a ground instance, or else by one that a generator makes for it: the generator's head is unified with the
constraint's types, and its requirements have to be satisfied. While a constraint is tested it is taken to be satisfied.
An instance is its types here: binding its members is left out. The classes have no functional dependencies.
-/

namespace Hobbes.Lang

open Core Term

abbrev ConstraintPtr := ConstraintSet.Constraint

structure TCInstanceFn where
  reqs : List ConstraintPtr
  itys : List TyTerm
  order : ℕ

structure TClass where
  tvs : ℕ
  reqs : List ConstraintPtr
  tcinstances : List (List TyTerm)
  tcinstdb : TypeMap (List TyTerm)
  tcinstancefns : List TCInstanceFn
  tcinstfndb : TypeMap (List TCInstanceFn)
  testedInstances : TypeMap Bool

/-- The classes by their names, and the number of the next fresh name. -/
structure TEnv where
  unquals : Bytes → Option TClass
  uidCtr : ℕ

def hasFreeVariables (mts : List TyTerm) : Bool := !areMonoSingular mts

/-! ### Definitions -/

section

variable (off : List Bytes → List TyTerm → ℕ → ℤ)

namespace TClass

def new (tvs : ℕ) (reqs : List ConstraintPtr) : TClass :=
  ⟨tvs, reqs, [], PrefixTree.empty, [], PrefixTree.empty, PrefixTree.empty⟩

/-- `insert`, of a ground instance. -/
def insertInstance (tc : TClass) (itys : List TyTerm) : Option TClass :=
  if itys.length ≠ tc.tvs then none
  else some { tc with
    tcinstances := tc.tcinstances ++ [itys]
    tcinstdb := TypeMap.insert off itys itys tc.tcinstdb }

/-- `insert`, of an instance generator. -/
def insertInstanceFn (tc : TClass) (reqs : List ConstraintPtr) (itys : List TyTerm) : Option TClass :=
  if itys.length ≠ tc.tvs then none
  else
    let ifp : TCInstanceFn := ⟨reqs, itys, tc.tcinstancefns.length⟩
    let hfns := (TypeMap.lookup off itys tc.tcinstfndb).getD []
    some { tc with
      tcinstancefns := tc.tcinstancefns ++ [ifp]
      tcinstfndb := TypeMap.insert off itys (hfns ++ [ifp]) tc.tcinstfndb }

def test (tc : TClass) (mts : List TyTerm) (b : Bool) : TClass :=
  { tc with testedInstances := TypeMap.insert off mts b tc.testedInstances }

end TClass

/-- What is defined before constraints are tested. -/
inductive Definition where
  | tclass (name : Bytes) (tvs : ℕ) (reqs : List ConstraintPtr)
  | inst (name : Bytes) (itys : List TyTerm)
  | instFn (name : Bytes) (reqs : List ConstraintPtr) (itys : List TyTerm)

namespace TEnv

def empty (uidCtr : ℕ) : TEnv := ⟨fun _ => none, uidCtr⟩

def set (tenv : TEnv) (name : Bytes) (tc : TClass) : TEnv :=
  { tenv with unquals := Function.update tenv.unquals name (some tc) }

def define (tenv : TEnv) : Definition → Option TEnv
  | .tclass name tvs reqs =>
    if (tenv.unquals name).isSome then none else some (tenv.set name (TClass.new tvs reqs))
  | .inst name itys => do
    let tc ← tenv.unquals name
    return tenv.set name (← tc.insertInstance off itys)
  | .instFn name reqs itys => do
    let tc ← tenv.unquals name
    return tenv.set name (← tc.insertInstanceFn off reqs itys)

def defineAll (tenv : TEnv) (ds : List Definition) : Option TEnv := ds.foldlM (define off) tenv

end TEnv

end

/-! ### Fresh names -/

def freshName (uid : ℕ) : Bytes := ascii (".t" ++ toString uid)

/-- A fresh variable for each name, in order. -/
def freshSubst : ℕ → List Bytes → List (Bytes × TyTerm)
  | _, [] => []
  | uid, x :: xs => (x, var (freshName uid)) :: freshSubst (uid + 1) xs

/-- `substituteF(true, s)`: what is put in place of a variable is substituted into as well. -/
def substituteTerm (s : List (Bytes × TyTerm)) : ℕ → TyTerm → Outcome TyTerm
  | 0, _ => .runsOn
  | fuel + 1, .var x =>
    match s.lookup x with
    | none => return .var x
    | some t => substituteTerm s fuel t
  | fuel + 1, .app c ts => do
    let us ← Outcome.foldOver (fun us t => do return us ++ [← substituteTerm s fuel t]) [] ts
    return .app c us

def substituteTerms (s : List (Bytes × TyTerm)) (fuel : ℕ) (ts : List TyTerm) : Outcome (List TyTerm) :=
  Outcome.foldOver (fun us t => do
    if isMonoSingular t then return us ++ [t]
    else return us ++ [← substituteTerm s fuel t]) [] ts

namespace TCInstanceFn

def names (f : TCInstanceFn) : List Bytes := (typesVars f.itys).union (typesVars (f.reqs.flatMap fun c => c.arguments))

/-- The requirements and the head, with fresh variables. -/
def freshDef (fuel : ℕ) (f : TCInstanceFn) (uidCtr : ℕ) : Outcome (ℕ × List ConstraintPtr × List TyTerm) := do
  let ns := f.names.insertionSort (· ≤ ·)
  let s := freshSubst uidCtr ns
  let argl ← substituteTerms s fuel f.itys
  let acsts ← Outcome.foldOver (fun cs c => do
    return cs ++ [⟨c.name, ← substituteTerms s fuel c.arguments⟩]) [] f.reqs
  return (uidCtr + ns.length, acsts, argl)

end TCInstanceFn

/-! ### Unification and refinement -/

def mgu (fuel : ℕ) (s : MonoTypeUnifier) (t0s t1s : List TyTerm) : Outcome MonoTypeUnifier :=
  if t0s.length = t1s.length then
    Outcome.foldOver (fun s p => MonoTypeUnifier.unify fuel s p.1 p.2) s (t0s.zip t1s)
  else .throws

mutual

/-- A `TGen` stands for one of the types. -/
def instantiate (ts : List TyTerm) : TyTerm → TyTerm
  | .var x => .var x
  | .app (.tgen x) us => ts.getD x (.app (.tgen x) us)
  | .app c us => .app c (instantiates ts us)

def instantiates (ts : List TyTerm) : List TyTerm → List TyTerm
  | [] => []
  | u :: us => instantiate ts u :: instantiates ts us

end

namespace TEnv

/-- `Constraint::update`. -/
def update (fuel : ℕ) (s : MonoTypeUnifier) (c : ConstraintPtr) : Outcome (MonoTypeUnifier × ConstraintPtr) := do
  let (s, mts) ← ConstraintSet.substituteAll fuel s c.arguments
  return (s, ⟨c.name, mts⟩)

/-- Nothing is bound by it, as there are no dependencies, but it looks up the classes that are implied. -/
def refine (unquals : Bytes → Option TClass) : ℕ → MonoTypeUnifier → ConstraintPtr →
    Outcome (MonoTypeUnifier × ConstraintPtr × Bool)
  | 0, _, _ => .runsOn
  | fuel + 1, s, c => do
    let (s, c) ← update fuel s c
    match unquals c.name with
    | none => .throws
    | some tc =>
      if c.arguments.length ≠ tc.tvs then return (s, c, false)
      else do
        let (s, r) ← Outcome.foldOver (fun p req => do
          let (s, _, upd) ← refine unquals fuel p.1 ⟨req.name, instantiates c.arguments req.arguments⟩
          return (s, p.2 || upd)) (s, false) tc.reqs
        if r then do
          let (s, c) ← update fuel s c
          return (s, c, true)
        else return (s, c, false)

/-- Until nothing is updated. -/
def refineAll (unquals : Bytes → Option TClass) (fuel : ℕ) : ℕ → MonoTypeUnifier → List ConstraintPtr →
    Outcome (MonoTypeUnifier × List ConstraintPtr)
  | 0, _, _ => .runsOn
  | n + 1, s, cs => do
    let (s, cs, upd) ← Outcome.foldOver (fun p c => do
      let (s, c, r) ← refine unquals fuel p.1 c
      return (s, p.2.1 ++ [c], p.2.2 || r)) (s, ([], false)) cs
    if upd then refineAll unquals fuel n s cs else return (s, cs)

end TEnv

/-! ### Tests -/

section

variable (off : List Bytes → List TyTerm → ℕ → ℤ) (o : KeyOrder)

namespace TClass

def candidateTCInstFns (fuel : ℕ) (tc : TClass) (mts : List TyTerm) : Outcome (List TCInstanceFn) := do
  let fss ← TypeMap.bidimatches o fuel tc.tcinstfndb mts
  return fss.flatten.insertionSort fun a b => a.order ≤ b.order

end TClass

/-- What is thrown is caught, and the requirement is taken not to be satisfied. -/
def requirementsSatisfied (satisfied : TEnv → ConstraintPtr → Outcome (TEnv × Option Bool)) :
    TEnv → List ConstraintPtr → Outcome (TEnv × Bool)
  | tenv, [] => return (tenv, true)
  | tenv, req :: reqs =>
    if hasFreeVariables req.arguments then return (tenv, false)
    else do
      let (tenv, ok) ← satisfied tenv req
      if ok = some true then requirementsSatisfied satisfied tenv reqs else return (tenv, false)

/-- The variables among the types that the unifier knows are substituted. -/
def MonoTypeUnifier.substitution (u : MonoTypeUnifier) (fuel : ℕ) : Outcome MonoTypeUnifier := do
  let (u, _) ← ConstraintSet.substituteAll fuel u ((o.keys u.m.nodes).filter fun
    | .var _ => true
    | .app _ _ => false)
  return u

namespace TCInstanceFn

/-- The instance that is put out, and whether it is a new one. -/
def apply (satisfied : TEnv → ConstraintPtr → Outcome (TEnv × Option Bool)) (fuel : ℕ) (tenv : TEnv) (f : TCInstanceFn)
    (tys : List TyTerm) (pc : Bytes) : Outcome (TEnv × Option (Option (List TyTerm × Bool))) :=
  if f.itys.length ≠ tys.length then return (tenv, some none)
  else do
    let (uidCtr, acsts, argl) ← f.freshDef fuel tenv.uidCtr
    let tenv := { tenv with uidCtr := uidCtr }
    let r ← (do
      let u ← mgu fuel MonoTypeUnifier.empty argl tys
      TEnv.refineAll tenv.unquals fuel fuel u acsts).attempt
    match r with
    | none => return (tenv, some none)
    | some (u, acsts) => do
      let (tenv, ok) ← requirementsSatisfied satisfied tenv acsts
      if ok then do
        let nitys ← (do
          let (u, nitys) ← ConstraintSet.substituteAll fuel u argl
          if hasFreeVariables nitys then return none
          else do
            let _ ← u.substitution o fuel
            return some nitys).attempt
        match nitys with
        | none => return (tenv, none)
        | some none => return (tenv, some none)
        | some (some nitys) =>
          match tenv.unquals pc with
          | none => return (tenv, none)
          | some tc => do
            let r ← (TypeMap.allMatches off o fuel tc.tcinstdb nitys).attempt
            match r with
            | none => return (tenv, none)
            | some [ip] => return (tenv, some (some (ip, false)))
            | some _ => return (tenv, some (some (nitys, true)))
      else return (tenv, some none)

end TCInstanceFn

/-- The first candidate that puts out an instance. -/
def firstInstance (apply : TEnv → TCInstanceFn → Outcome (TEnv × Option (Option (List TyTerm × Bool))))
    (insert : TEnv → List TyTerm → Option TEnv) :
    TEnv → List TCInstanceFn → Outcome (TEnv × Option (List (List TyTerm)))
  | tenv, [] => return (tenv, some [])
  | tenv, f :: fs => do
    let (tenv, r) ← apply tenv f
    match r with
    | none => return (tenv, none)
    | some none => firstInstance apply insert tenv fs
    | some (some (ninst, false)) => return (tenv, some [ninst])
    | some (some (ninst, true)) =>
      match insert tenv ninst with
      | none => return (tenv, none)
      | some tenv => return (tenv, some [ninst])

namespace TClass

/-- `matches`. -/
def instanceMatches (satisfied : TEnv → ConstraintPtr → Outcome (TEnv × Option Bool)) (fuel : ℕ) (tenv : TEnv)
    (name : Bytes) (mts : List TyTerm) : Outcome (TEnv × Option (List (List TyTerm))) :=
  match tenv.unquals name with
  | none => return (tenv, none)
  | some tc => do
    let r ← (TypeMap.allMatches off o fuel tc.tcinstdb mts).attempt
    match r with
    | none => return (tenv, none)
    | some (ip :: ips) => return (tenv, some (ip :: ips))
    | some [] => do
      let tenv := tenv.set name (tc.test off mts true)
      let ifns ← (tc.candidateTCInstFns o fuel mts).attempt
      match ifns with
      | none => return (tenv, none)
      | some ifns => do
        let (tenv, r) ← firstInstance (fun tenv f => f.apply off o satisfied fuel tenv mts name)
          (fun tenv itys => tenv.define off (.inst name itys)) tenv ifns
        match r, tenv.unquals name with
        | some r, some tc => return (tenv.set name (tc.test off mts false), some r)
        | _, _ => return (tenv, none)

end TClass

namespace TEnv

def satisfied : ℕ → TEnv → ConstraintPtr → Outcome (TEnv × Option Bool)
  | 0, _, _ => .runsOn
  | fuel + 1, tenv, c =>
    match tenv.unquals c.name with
    | none => return (tenv, none)
    | some tc =>
      if c.arguments.length ≠ tc.tvs then return (tenv, some false)
      else if hasFreeVariables c.arguments then return (tenv, some false)
      else if TypeMap.lookup off c.arguments tc.testedInstances = some true then return (tenv, some true)
      else do
        let (tenv, r) ← TClass.instanceMatches off o (satisfied fuel) fuel tenv c.name c.arguments
        return (tenv, r.map fun r => r.length == 1)

/-- One query after the other. -/
def satisfiedAll (fuel : ℕ) (tenv : TEnv) (cs : List ConstraintPtr) : Outcome (TEnv × List Bool) :=
  Outcome.foldOver (fun p c => do
    let (tenv, r) ← satisfied off o fuel p.1 c
    match r with
    | none => .throws
    | some b => return (tenv, p.2 ++ [b])) (tenv, []) cs

end TEnv

end

/-! ### Derivations of constraints -/

namespace TEnv

variable (tenv : TEnv)

/-- There is a ground instance. -/
def Fact (c : ConstraintPtr) : Prop := ∃ tc, tenv.unquals c.name = some tc ∧ c.arguments ∈ tc.tcinstances

/-- A generator makes an instance, if these requirements are satisfied. -/
def Rule (c : ConstraintPtr) (reqs : List ConstraintPtr) : Prop :=
  ∃ tc, tenv.unquals c.name = some tc ∧ ∃ f ∈ tc.tcinstancefns, ∃ σ : Bytes → TyTerm,
    f.itys.map (Term.subst σ) = c.arguments ∧ reqs = f.reqs.map (ConstraintSet.Constraint.subst σ)

/-- A generator's head that can be unified with the constraint's types by the names of constructors can be made equal to
them. -/
def Sharp (c : ConstraintPtr) : Prop :=
  ∀ tc, tenv.unquals c.name = some tc → ∀ f ∈ tc.tcinstancefns, f.itys.length = c.arguments.length →
    Joinable TyCtor.cname (f.itys.zip c.arguments) → TypeMap.IsInstance f.itys c.arguments

/-- A query that no assumption leads astray. -/
structure Settles (q : ConstraintPtr) : Prop where
  refuted : Refuted tenv.Fact tenv.Rule q
  sharp : ∀ path c, Searched tenv.Fact tenv.Rule q path c → c ∉ path → ¬ tenv.Fact c → tenv.Sharp c

end TEnv

/-- No names are made fresh that a generator has already, and it has no `TGen`s. Its requirements only have variables
of its head. -/
structure TCInstanceFn.WellFormed (uidCtr : ℕ) (f : TCInstanceFn) : Prop where
  fresh : ∀ n, uidCtr ≤ n → freshName n ∉ f.names
  tgens : ∀ t ∈ f.itys ++ f.reqs.flatMap fun c => c.arguments, Within {c | c.isTGen = false} t
  covered : ∀ c ∈ f.reqs, ∀ x ∈ typesVars c.arguments, x ∈ typesVars f.itys

/-- Heads of generators have no instance in common, and none of them is a ground instance. Only classes that are there
are referred to. -/
structure TClass.WellFormed (tenv : TEnv) (tc : TClass) : Prop where
  ground : ∀ mts ∈ tc.tcinstances, ∀ t ∈ mts, isMonoSingular t = true
  generators : ∀ f ∈ tc.tcinstancefns, f.WellFormed tenv.uidCtr
  apart : tc.tcinstancefns.Pairwise fun f g => ¬ TypeMap.HaveInstance f.itys g.itys
  groundApart : ∀ f ∈ tc.tcinstancefns, ∀ mts ∈ tc.tcinstances, ¬ TypeMap.IsInstance f.itys mts
  known : ∀ c ∈ tc.reqs ++ tc.tcinstancefns.flatMap TCInstanceFn.reqs, ∃ tc', tenv.unquals c.name = some tc'

def TEnv.WellFormed (tenv : TEnv) : Prop := ∀ name tc, tenv.unquals name = some tc → tc.WellFormed tenv

end Hobbes.Lang
