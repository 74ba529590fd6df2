import Hobbes.Lang.TypeMap
import Hobbes.Lang.UnifierExtends

/-!
# Sets of constraints

Constraints are kept in a type map, each under its name and its arguments as they were when it was stored. Before one is
stored, the functional dependencies of its class are applied between it, as it is given, and the constraints that are
found under its own inputs. A class is known by its dependencies here.
-/

namespace Hobbes.Lang

open Core Term

/-! ### Exact matches -/

namespace TypeMap

variable {V : Type} (off : List Bytes → List TyTerm → ℕ → ℤ)

/-- Exact matches, where `none` is matched by all types. -/
def find : List (Option TyTerm) → TypeMap V → List V
  | [], p => p.value.toList
  | some mt :: path, p =>
    match p.moveTo (monoTypeOrd off) mt with
    | none => []
    | some q => find path q
  | none :: path, p => p.children.flatMap fun kp => find path kp.2

variable {off}

/-- What is found is kept for types that the path asks for. -/
lemma exists_of_mem_find {path : List (Option TyTerm)} {d : TypeMap V} (h : d.Ordered (monoTypeOrd off)) {v : V}
    (hv : v ∈ find off path d) :
    ∃ mts, lookup off mts d = some v ∧ mts.length = path.length ∧
      ∀ (i : ℕ) mt, path[i]? = some (some mt) → mts[i]? = some mt := by
  induction path generalizing d with
  | nil => exact ⟨[], Option.mem_toList.mp hv, rfl, nofun⟩
  | cons m path ih =>
    have hcons : ∀ k mts, (∀ mt, m = some mt → k = mt) → (∀ (i : ℕ) mt, path[i]? = some (some mt) → mts[i]? = some mt) →
        ∀ (i : ℕ) mt, (m :: path)[i]? = some (some mt) → (k :: mts)[i]? = some mt := by
      intro k mts hk hmts i mt hi
      cases i with
      | zero => exact congrArg some (hk mt (Option.some.inj hi))
      | succ i => exact hmts i mt hi
    cases m with
    | some mt =>
      rw [find] at hv
      cases hmove : d.moveTo (monoTypeOrd off) mt with
      | none =>
        rw [hmove] at hv
        cases hv
      | some q =>
        rw [hmove] at hv
        obtain ⟨mts, hmts, hlen, hpath⟩ := ih (h.child (PrefixTree.mem_of_find hmove)) hv
        refine ⟨mt :: mts, ?_, congrArg (· + 1) hlen, hcons mt mts (fun _ => Option.some.inj) hpath⟩
        rw [lookup, PrefixTree.lookup_cons, hmove]
        exact hmts
    | none =>
      rw [find] at hv
      obtain ⟨kp, hkp, hv⟩ := List.mem_flatMap.mp hv
      obtain ⟨mts, hmts, hlen, hpath⟩ := ih (h.child hkp) hv
      exact ⟨kp.1 :: mts, (h.lookup_child hkp mts).trans hmts, congrArg (· + 1) hlen, hcons kp.1 mts nofun hpath⟩

end TypeMap

/-! ### Insertion -/

namespace ConstraintSet

/-- A constraint on types without binders. -/
structure Constraint where
  name : Bytes
  arguments : List TyTerm
  deriving DecidableEq

/-- Parameters that determine another one. -/
abbrev FunDep := List ℕ × ℕ

abbrev CSet := TypeMap Constraint

def typeSeqForm (c : Constraint) : List TyTerm := .app (.tstring c.name) [] :: c.arguments

/-- A path where only the name and the inputs count. -/
def focusOnFundep (vs : List ℕ) (mts : List TyTerm) : List (Option TyTerm) :=
  mts.mapIdx fun i t => if i = 0 ∨ i - 1 ∈ vs then some t else none

variable (off : List Bytes → List TyTerm → ℕ → ℤ) (classes : Bytes → Option (List FunDep))

def unifyOutputs (fuel : ℕ) (output : ℕ) (cpath : List TyTerm) (s : MonoTypeUnifier) (mc : Constraint) :
    Outcome MonoTypeUnifier :=
  match cpath[output + 1]?, (typeSeqForm mc)[output + 1]? with
  | some t, some u => s.unify fuel t u
  -- There is nothing beyond the end of a path.
  | _, _ => .throws

def applyFundep (fuel : ℕ) (cpath : List TyTerm) (csts : CSet) (s : MonoTypeUnifier) (fd : FunDep) :
    Outcome MonoTypeUnifier :=
  Outcome.foldOver (unifyOutputs fuel fd.2 cpath) s (TypeMap.find off (focusOnFundep fd.1 cpath) csts)

def substituteAll (fuel : ℕ) (s : MonoTypeUnifier) (mts : List TyTerm) : Outcome (MonoTypeUnifier × List TyTerm) :=
  Outcome.foldOver (fun p t => do
    let (s, u) ← MonoTypeUnifier.substitute fuel p.1 t
    return (s, p.2 ++ [u])) (s, []) mts

lemma substituteAll_meets {s : MonoTypeUnifier} {root : TyTerm → TyTerm} {θ : Bytes → TyTerm} (h : StandsFor s root θ)
    (hmarks : ∀ k, ¬ visitedAt s k) (fuel : ℕ) (mts : List TyTerm) : (substituteAll fuel s mts).Meets
      (fun p => p.2 = mts.map (Term.subst θ) ∧ StandsFor p.1 root θ ∧ ∀ k, ¬ visitedAt p.1 k) False := by
  refine Outcome.Meets.foldOver (fun done (p : MonoTypeUnifier × List TyTerm) => p.2 = done.map (Term.subst θ) ∧
    StandsFor p.1 root θ ∧ ∀ k, ¬ visitedAt p.1 k) ⟨rfl, h, hmarks⟩ ?_
  rintro done t ⟨s, us⟩ - ⟨rfl, hs, hmarks⟩
  rw [Outcome.bind_def]
  apply (hs.substitute_meets hmarks fuel t).bind
  rintro ⟨s', u⟩ ⟨rfl, hs', hmarks'⟩
  refine ⟨?_, hs', hmarks'⟩
  rw [List.map_append, List.map_singleton]

def insert (fuel : ℕ) (p : CSet × MonoTypeUnifier) (c : Constraint) : Outcome (CSet × MonoTypeUnifier) := do
  let (csts, s) := p
  let cpath := typeSeqForm c
  if (TypeMap.lookup off cpath csts).isSome then return (csts, s)
  else
    match classes c.name with
    -- `lookupUnqualifier` does not find the class.
    | none => .throws
    | some fds => do
      let s ← Outcome.foldOver (applyFundep off fuel cpath csts) s fds
      let (s, mts) ← substituteAll fuel s c.arguments
      let cpath := typeSeqForm ⟨c.name, mts⟩
      return (if (TypeMap.lookup off cpath csts).isSome then csts else TypeMap.insert off cpath c csts, s)

def constraints (csts : CSet) : List Constraint := csts.values

/-- The first step of `refine`. -/
def insertAll (fuel : ℕ) (s : MonoTypeUnifier) (cs : List Constraint) : Outcome (CSet × MonoTypeUnifier) :=
  Outcome.foldOver (insert off classes fuel) (PrefixTree.empty, s) cs

/-! ### What dependencies force -/

def Constraint.subst (θ : Bytes → TyTerm) (c : Constraint) : Constraint := ⟨c.name, c.arguments.map (Term.subst θ)⟩

/-- Two constraints of one class. -/
def Alike (c d : Constraint) : Prop := c.name = d.name ∧ c.arguments.length = d.arguments.length

def AgreeAt (θ : Bytes → TyTerm) (c d : Constraint) (i : ℕ) : Prop :=
  c.arguments[i]?.map (Term.subst θ) = d.arguments[i]?.map (Term.subst θ)

/-- Two constraints agree at a parameter wherever what `θ` has solved and the equations are solved. -/
def Known (θ : Bytes → TyTerm) (E : Equations TyCtor Bytes) (c d : Constraint) (i : ℕ) : Prop :=
  ∀ σ, Absorbs σ θ → Solves σ E → AgreeAt σ c d i

def outputs (output : ℕ) (c d : Constraint) : Equations TyCtor Bytes :=
  c.arguments[output]?.toList.zip d.arguments[output]?.toList

/-- Equations that follow from the dependencies between constraints of `cs`, one after the other. -/
inductive Forced (cs : List Constraint) (θ : Bytes → TyTerm) : Equations TyCtor Bytes → Prop
  | nil : Forced cs θ []
  | append {E : Equations TyCtor Bytes} {c d : Constraint} {fds : List FunDep} {fd : FunDep} (h : Forced cs θ E)
      (hc : c ∈ cs) (hd : d ∈ cs) (halike : Alike c d) (hfds : classes c.name = some fds) (hfd : fd ∈ fds)
      (hinputs : ∀ i ∈ fd.1, Known θ E c d i) : Forced cs θ (E ++ outputs fd.2 c d)

/-- Constraints that agree on the inputs of a dependency agree on its output. -/
def Closed (θ : Bytes → TyTerm) (cs : List Constraint) : Prop :=
  ∀ c ∈ cs, ∀ d ∈ cs, Alike c d → ∀ fds, classes c.name = some fds → ∀ fd ∈ fds,
    (∀ i ∈ fd.1, AgreeAt θ c d i) → AgreeAt θ c d fd.2

/-- The constraints `cs` are reduced to the constraints `ds`, where a unifier that stood for `θ` comes to stand for
`θ'`. -/
structure Reduced (cs ds : List Constraint) (θ θ' : Bytes → TyTerm) : Prop where
  same : ∀ c, c ∈ ds.map (Constraint.subst θ') ↔ c ∈ cs.map (Constraint.subst θ')
  distinct : ds.Pairwise fun c d => c.subst θ' ≠ d.subst θ'
  closed : Closed classes θ' ds
  forced : ∃ E, Forced classes cs θ E ∧ ∀ σ, Absorbs σ θ' ↔ Absorbs σ θ ∧ Solves σ E

/-! ### Insertion in time -/

/-- The equations between a constraint and what is found under its inputs. -/
def found (fds : List FunDep) (csts : CSet) (c : Constraint) : Equations TyCtor Bytes :=
  fds.flatMap fun fd => (TypeMap.find off (focusOnFundep fd.1 (typeSeqForm c)) csts).flatMap (outputs fd.2 c)

/-- What is found is all that follows from the constraint, and it leaves what is stored as it is. -/
structure InTime (fds : List FunDep) (csts : CSet) (θ : Bytes → TyTerm) (c : Constraint) : Prop where
  solvable : ∃ σ, Absorbs σ θ ∧ Solves σ (found off fds csts c)
  /-- Stored constraints that agree with the new one on inputs are found, or are not needed. -/
  complete : ∀ d ∈ constraints csts, Alike c d → ∀ fd ∈ fds, (∀ i ∈ fd.1, AgreeAt θ c d i) →
    Known θ (found off fds csts c) c d fd.2
  /-- No inputs come to agree by what is found, unless the outputs agree as well. -/
  settled : ∀ d ∈ c :: constraints csts, ∀ e ∈ c :: constraints csts, Alike d e → ∀ fds', classes d.name = some fds' →
    ∀ fd ∈ fds', (∀ i ∈ fd.1, Known θ (found off fds csts c) d e i) →
      (∀ i ∈ fd.1, AgreeAt θ d e i) ∨ Known θ (found off fds csts c) d e fd.2
  /-- No stored constraints become equal. -/
  apart : ∀ mts mts' d e, mts ≠ mts' → TypeMap.lookup off mts csts = some d → TypeMap.lookup off mts' csts = some e →
    Alike d e → ¬ ∀ i, Known θ (found off fds csts c) d e i
  /-- If the new constraint becomes equal to a stored one, this is under a key in which no variable is bound, or
  equated with a lesser one. -/
  current : ∀ mts d, TypeMap.lookup off mts csts = some d → Alike c d → (∀ i, Known θ (found off fds csts c) c d i) →
    ∀ x ∈ typesVars mts, θ x = var x ∧ ∀ u : TyTerm, u.subst θ = u →
      (∀ σ, Absorbs σ θ → Solves σ (found off fds csts c) → σ x = u.subst σ) → ∃ z, u = var z ∧ x ≤ z

end ConstraintSet

end Hobbes.Lang
