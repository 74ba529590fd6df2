import Hobbes.Match.PatternCompiler
import Mathlib.Tactic.Common

/-!
# Running the states of a match
-/

namespace Hobbes.Match.Table

open Core Lang

variable {G E : Type}

abbrev Env := Name → Option Value

def Value.char : Value → Option (BitVec 8)
  | .prim (.char c) => some c
  | _ => none

/-- What is loaded, where the guards are what `guards` says. -/
def Load.eval (guards : G → Bool) (env : Env) : Load G → Option Value
  | .element x i =>
    match env x with
    | some (.array vs) => vs[i]?
    | _ => none
  | .field x f =>
    match env x with
    | some (.record fs) => fs.lookup f
    | _ => none
  | .openArray x _ =>
    match env x with
    | some (.array vs) => some (.array vs)
    | _ => none
  | .size x =>
    match env x with
    | some (.array vs) => some (.prim (.long (BitVec.ofNat 64 vs.length)))
    | _ => none
  | .packCArrLong x i _ =>
    match env x with
    | some (.array vs) => do
      let cs ← vs.mapM Value.char
      let w ← Match.packCArrLong cs i
      return .prim (.long w)
    | _ => none
  | .guard g => some (.prim (.bool (guards g)))

/-- Bind the definitions, one after the other. -/
def loadAll (guards : G → Bool) : List (Name × Load G) → Env → Option Env
  | [], env => some env
  | d :: ds, env => do
    let v ← d.2.eval guards env
    loadAll guards ds (Function.update env d.1 (some v))

inductive Outcome (E : Type) where
  | result (e : E)
  /-- There is no case for a constructor. -/
  | noCase

/-- Run a state to the end. -/
inductive Runs (guards : G → Bool) (states : List (MState G E)) : Env → MState G E → Outcome E → Prop where
  | finish {env : Env} {e : E} : Runs guards states env (.finishExpr e) (.result e)
  | load {env env' : Env} {ds : List (Name × Load G)} {next : ℕ} {st : MState G E} {o : Outcome E}
      (hds : loadAll guards ds env = some env') (hst : states[next]? = some st)
      (h : Runs guards states env' st o) : Runs guards states env (.loadVars ds next) o
  | val {env : Env} {x : Name} {jmps : List (Primitive × ℕ)} {dflt : ℕ} {p : Primitive} {st : MState G E}
      {o : Outcome E} (hx : env x = some (.prim p)) (hst : states[(jmps.lookup p).getD dflt]? = some st)
      (h : Runs guards states env st o) : Runs guards states env (.switchVal x jmps dflt) o
  | variant {env : Env} {x : Name} {jmps : List (Bytes × ℕ)} {dflt : Option ℕ} {lbl : Bytes} {v : Value} {s : ℕ}
      {st : MState G E} {o : Outcome E} (hx : env x = some (.variant lbl v)) (hs : jmps.lookup lbl = some s)
      (hst : states[s]? = some st) (h : Runs guards states (Function.update env (.payload x) (some v)) st o) :
      Runs guards states env (.switchVariant x jmps dflt) o
  | variantDefault {env : Env} {x : Name} {jmps : List (Bytes × ℕ)} {lbl : Bytes} {v : Value} {s : ℕ}
      {st : MState G E} {o : Outcome E} (hx : env x = some (.variant lbl v)) (hs : jmps.lookup lbl = none)
      (hst : states[s]? = some st) (h : Runs guards states env st o) :
      Runs guards states env (.switchVariant x jmps (some s)) o
  | noCase {env : Env} {x : Name} {jmps : List (Bytes × ℕ)} {lbl : Bytes} {v : Value}
      (hx : env x = some (.variant lbl v)) (hs : jmps.lookup lbl = none) :
      Runs guards states env (.switchVariant x jmps none) .noCase

variable {guards : G → Bool} {states states' : List (MState G E)} {env : Env} {st : MState G E} {o o' : Outcome E}

lemma Runs.mono (h : Runs guards states env st o) (hpre : states <+: states') : Runs guards states' env st o := by
  have hkept : ∀ {s : ℕ} {st : MState G E}, states[s]? = some st → states'[s]? = some st := fun h =>
    getElem?_of_prefix hpre h
  induction h with
  | finish => exact .finish
  | load hds hst _ ih => exact .load hds (hkept hst) ih
  | val hx hst _ ih => exact .val hx (hkept hst) ih
  | variant hx hs hst _ ih => exact .variant hx hs (hkept hst) ih
  | variantDefault hx hs hst _ ih => exact .variantDefault hx hs (hkept hst) ih
  | noCase hx hs => exact .noCase hx hs

/-- A run is determined. -/
lemma Runs.unique (h : Runs guards states env st o) (h' : Runs guards states env st o') : o = o' := by
  induction h with
  | finish =>
    cases h'
    rfl
  | load hds hst _ ih =>
    cases h' with
    | load hds' hst' h' =>
      obtain rfl := Option.some.inj (hds.symm.trans hds')
      obtain rfl := Option.some.inj (hst.symm.trans hst')
      exact ih h'
  | val hx hst _ ih =>
    cases h' with
    | val hx' hst' h' =>
      rw [hx, Option.some.injEq, Value.prim.injEq] at hx'
      subst hx'
      obtain rfl := Option.some.inj (hst.symm.trans hst')
      exact ih h'
  | variant hx hs hst _ ih =>
    cases h' with
    | variant hx' hs' hst' h' =>
      rw [hx, Option.some.injEq, Value.variant.injEq] at hx'
      obtain ⟨rfl, rfl⟩ := hx'
      obtain rfl := Option.some.inj (hs.symm.trans hs')
      obtain rfl := Option.some.inj (hst.symm.trans hst')
      exact ih h'
    | variantDefault hx' hs' =>
      rw [hx, Option.some.injEq, Value.variant.injEq] at hx'
      rw [← hx'.1, hs] at hs'
      cases hs'
    | noCase hx' hs' =>
      rw [hx, Option.some.injEq, Value.variant.injEq] at hx'
      rw [← hx'.1, hs] at hs'
      cases hs'
  | variantDefault hx hs hst _ ih =>
    cases h' with
    | variant hx' hs' =>
      rw [hx, Option.some.injEq, Value.variant.injEq] at hx'
      rw [← hx'.1, hs] at hs'
      cases hs'
    | variantDefault hx' hs' hst' h' =>
      obtain rfl := Option.some.inj (hst.symm.trans hst')
      exact ih h'
  | noCase hx hs =>
    cases h' with
    | variant hx' hs' =>
      rw [hx, Option.some.injEq, Value.variant.injEq] at hx'
      rw [← hx'.1, hs] at hs'
      cases hs'
    | noCase _ _ => rfl

/-! ### Computations -/

/-- What is made stays. -/
structure Extends (dfa dfa' : MDFA G E) : Prop where
  states : dfa.states <+: dfa'.states
  found : ∀ x ∈ dfa.found, x ∈ dfa'.found

lemma Extends.refl (dfa : MDFA G E) : Extends dfa dfa := ⟨List.prefix_rfl, fun _ h => h⟩

lemma Extends.trans {dfa₁ dfa₂ dfa₃ : MDFA G E} (h : Extends dfa₁ dfa₂) (h' : Extends dfa₂ dfa₃) :
    Extends dfa₁ dfa₃ :=
  ⟨h.states.trans h'.states, fun x hx => h'.found x (h.found x hx)⟩

/-- The name of a column, by the first pattern that is no wildcard. -/
def nameOfColumn (ps : PatternRows G E) (c : ℕ) : Option Name :=
  ps.findSome? fun r => (r.patterns[c]?.filter fun p => !p.isAny).map Pattern.name

/-- No table was found that has the same rows, but for other parts of the input. -/
def Clean (dfa : MDFA G E) : Prop := ∀ x ∈ dfa.found, ∀ c, nameOfColumn x.1 c = nameOfColumn x.2 c

lemma Clean.of_extends {dfa dfa' : MDFA G E} (h : Clean dfa') (hext : Extends dfa dfa') : Clean dfa :=
  fun x hx => h x (hext.found x hx)

/-- A computation keeps what is `Good`, and has results with `Q` where `P` holds before. -/
def Spec (Good : MDFA G E → Prop) {α : Type} (P : List (MState G E) → Prop) (m : Make G E α)
    (Q : α → List (MState G E) → Prop) : Prop :=
  ∀ dfa a dfa', m dfa = .ok (a, dfa') →
    Extends dfa dfa' ∧ (Good dfa → Clean dfa' → P dfa.states → Good dfa' ∧ Q a dfa'.states)

section

variable {α β : Type} {Good : MDFA G E → Prop} {P P' : List (MState G E) → Prop}
  {Q Q' : α → List (MState G E) → Prop} {R : β → List (MState G E) → Prop}

lemma bind_eq_ok_iff {m : Make G E α} {f : α → Make G E β} {dfa dfa' : MDFA G E} {b : β} :
    (m >>= f) dfa = .ok (b, dfa') ↔ ∃ a dfa₁, m dfa = .ok (a, dfa₁) ∧ f a dfa₁ = .ok (b, dfa') := by
  change (m dfa >>= fun r => f r.1 r.2) = _ ↔ _
  cases m dfa with
  | error e => simp [bind, Except.bind]
  | ok r =>
    obtain ⟨a, dfa₁⟩ := r
    simp only [Except.bind, bind, Except.ok.injEq, Prod.mk.injEq]
    constructor
    · intro h
      exact ⟨a, dfa₁, ⟨rfl, rfl⟩, h⟩
    · rintro ⟨_, _, ⟨rfl, rfl⟩, h⟩
      exact h

lemma Spec.bind {m : Make G E α} {f : α → Make G E β} (hm : Spec Good P m Q)
    (hf : ∀ a, Spec Good (Q a) (f a) R) : Spec Good P (m >>= f) R := by
  intro dfa b dfa' h
  obtain ⟨a, dfa₁, ha, hb⟩ := bind_eq_ok_iff.mp h
  obtain ⟨hext, hgood⟩ := hm dfa a dfa₁ ha
  obtain ⟨hext', hgood'⟩ := hf a dfa₁ b dfa' hb
  refine ⟨hext.trans hext', fun hg hclean hp => ?_⟩
  obtain ⟨hg₁, hq⟩ := hgood hg (hclean.of_extends hext') hp
  exact hgood' hg₁ hclean hq

lemma Spec.pure {a : α} (h : ∀ states, P states → Q a states) : Spec Good P (Pure.pure a) Q := by
  intro dfa a' dfa' heq
  cases heq
  exact ⟨.refl dfa, fun hg _ hp => ⟨hg, h _ hp⟩⟩

lemma Spec.throw {f : Failure} : Spec Good P (throw f : Make G E α) Q := by
  intro dfa a dfa' h
  cases h

lemma Spec.imp {m : Make G E α} (h : Spec Good P m Q) (hP : ∀ states, P' states → P states)
    (hQ : ∀ a states, Q a states → Q' a states) : Spec Good P' m Q' := by
  intro dfa a dfa' heq
  obtain ⟨hext, hgood⟩ := h dfa a dfa' heq
  exact ⟨hext, fun hg hclean hp => (hgood hg hclean (hP _ hp)).imp_right (hQ a _)⟩

/-- What stays true as states are added may be assumed to be there after a computation as well. -/
lemma Spec.frame {m : Make G E α} (h : Spec Good P m Q)
    (hP : ∀ states states', states <+: states' → P' states → P' states') :
    Spec Good (fun states => P states ∧ P' states) m fun a states => Q a states ∧ P' states := by
  intro dfa a dfa' heq
  obtain ⟨hext, hgood⟩ := h dfa a dfa' heq
  refine ⟨hext, fun hg hclean hp => ?_⟩
  obtain ⟨hg', hq⟩ := hgood hg hclean hp.1
  exact ⟨hg', hq, hP _ _ hext.states hp.2⟩

lemma Spec.mapM {xs : List α} {f : α → Make G E β} {R : α → β → List (MState G E) → Prop}
    (hP : ∀ states states', states <+: states' → P states → P states')
    (hR : ∀ a b states states', states <+: states' → R a b states → R a b states')
    (hf : ∀ a ∈ xs, Spec Good P (f a) (R a)) :
    Spec Good P (xs.mapM f) fun bs states => List.Forall₂ (fun a b => R a b states) xs bs := by
  induction xs with
  | nil =>
    rw [List.mapM_nil]
    exact Spec.pure fun _ _ => .nil
  | cons a xs ih =>
    obtain ⟨ha, hxs⟩ := List.forall_mem_cons.mp hf
    rw [List.mapM_cons]
    have hhead : Spec Good P (f a) fun b states => R a b states ∧ P states :=
      (ha.frame hP).imp (fun _ hp => ⟨hp, hp⟩) fun _ _ h => h
    refine hhead.bind fun b => ?_
    have htail : Spec Good (fun states => R a b states ∧ P states) (xs.mapM f)
        fun bs states => List.Forall₂ (fun a b => R a b states) xs bs ∧ R a b states :=
      ((ih hxs).frame (hR a b)).imp (fun _ hp => ⟨hp.2, hp.1⟩) fun _ _ h => h
    exact htail.bind fun bs => Spec.pure fun _ h => .cons h.2 h.1

end

end Hobbes.Match.Table
