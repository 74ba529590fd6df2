import Hobbes.Lang.InstanceResolution

/-!
# Queries

Constraints are queried one after the other, after all definitions. Each answer says whether the constraint is derivable
from the definitions, whatever has been asked before, as long as no query is led astray by an assumption. A query that
is leaves an instance that is not derivable, which later queries find.
-/

namespace Hobbes.Lang

open Core Term

variable {off : List Bytes → List TyTerm → ℕ → ℤ} {o : KeyOrder} {tenv₀ tenv : TEnv}

/-! ### What has been defined -/

/-- The ground instance of a class that is defined. -/
def Definition.instanceOf (name : Bytes) : Definition → Option (List TyTerm)
  | .inst name' itys => if name' = name then some itys else none
  | _ => none

/-- The requirements and the head of a generator of a class that is defined. -/
def Definition.generatorOf (name : Bytes) : Definition → Option (List ConstraintPtr × List TyTerm)
  | .instFn name' reqs itys => if name' = name then some (reqs, itys) else none
  | _ => none

/-- A class is what has been defined for it. -/
structure TEnv.DefinedBy (ds : List Definition) (tenv : TEnv) : Prop where
  defined : ∀ name, (∃ tc, tenv.unquals name = some tc) ↔ ∃ tvs reqs, .tclass name tvs reqs ∈ ds
  tclass : ∀ name tc, tenv.unquals name = some tc → .tclass name tc.tvs tc.reqs ∈ ds
  instances : ∀ name, ((tenv.unquals name).map TClass.tcinstances).getD [] =
    ds.filterMap (Definition.instanceOf name)
  generators : ∀ name, ((tenv.unquals name).map fun tc => tc.tcinstancefns.map fun f => (f.reqs, f.itys)).getD [] =
    ds.filterMap (Definition.generatorOf name)

namespace TEnv.DefinedBy

variable {ds : List Definition} {d : Definition}

/-- A definition changes the class that it is about. -/
lemma set (h : tenv.DefinedBy ds) {name : Bytes} {tc : TClass} (htclass : .tclass name tc.tvs tc.reqs ∈ ds ++ [d])
    (hother : ∀ name', name' ≠ name → d.instanceOf name' = none ∧ d.generatorOf name' = none ∧
      ∀ tvs reqs, .tclass name' tvs reqs ≠ d)
    (hinstances : tc.tcinstances =
      ((tenv.unquals name).map TClass.tcinstances).getD [] ++ (d.instanceOf name).toList)
    (hgenerators : (tc.tcinstancefns.map fun f => (f.reqs, f.itys)) =
      ((tenv.unquals name).map fun tc => tc.tcinstancefns.map fun f => (f.reqs, f.itys)).getD [] ++
        (d.generatorOf name).toList) : (tenv.set name tc).DefinedBy (ds ++ [d]) := by
  constructor
  · intro name'
    rw [unquals_set]
    split_ifs with hname
    · rw [hname]
      exact iff_of_true ⟨tc, rfl⟩ ⟨_, _, htclass⟩
    · simp only [h.defined name', List.mem_append, List.mem_singleton, (hother name' hname).2.2, or_false]
  · intro name' tc' htc'
    rw [unquals_set] at htc'
    split_ifs at htc' with hname
    · cases htc'
      rwa [hname]
    · exact List.mem_append_left _ (h.tclass name' tc' htc')
  · intro name'
    rw [unquals_set, List.filterMap_append, ← h.instances]
    split_ifs with hname
    · rw [hname, Option.map_some, Option.getD_some, hinstances]
      cases hd : d.instanceOf name <;> simp [hd]
    · simp [(hother name' hname).1]
  · intro name'
    rw [unquals_set, List.filterMap_append, ← h.generators]
    split_ifs with hname
    · rw [hname, Option.map_some, Option.getD_some, hgenerators]
      cases hd : d.generatorOf name <;> simp [hd]
    · simp [(hother name' hname).2.1]

lemma define (h : tenv.DefinedBy ds) {tenv' : TEnv} (heq : tenv.define off d = some tenv') :
    tenv'.DefinedBy (ds ++ [d]) := by
  cases d with
  | tclass name tvs reqs =>
    rw [TEnv.define] at heq
    split_ifs at heq with hnew
    cases heq
    rw [Bool.not_eq_true, Option.isSome_eq_false_iff, Option.isNone_iff_eq_none] at hnew
    refine h.set (List.mem_append_right _ (List.mem_singleton_self _)) (fun name' hname => ?_) ?_ ?_
    · simp [Definition.instanceOf, Definition.generatorOf, hname]
    · simp [TClass.new, Definition.instanceOf, hnew]
    · simp [TClass.new, Definition.generatorOf, hnew]
  | inst name itys =>
    obtain ⟨tc, htc, heq⟩ := Option.bind_eq_some_iff.mp heq
    obtain ⟨tc', htc', heq⟩ := Option.bind_eq_some_iff.mp heq
    cases heq
    unfold TClass.insertInstance at htc'
    split_ifs at htc'
    cases htc'
    refine h.set (List.mem_append_left _ (h.tclass name tc htc)) (fun name' hname => ?_) ?_ ?_
    · simp [Definition.instanceOf, Definition.generatorOf, hname.symm]
    · simp [Definition.instanceOf, htc]
    · simp [Definition.generatorOf, htc]
  | instFn name reqs itys =>
    obtain ⟨tc, htc, heq⟩ := Option.bind_eq_some_iff.mp heq
    obtain ⟨tc', htc', heq⟩ := Option.bind_eq_some_iff.mp heq
    cases heq
    unfold TClass.insertInstanceFn at htc'
    split_ifs at htc'
    cases htc'
    refine h.set (List.mem_append_left _ (h.tclass name tc htc)) (fun name' hname => ?_) ?_ ?_
    · simp [Definition.instanceOf, Definition.generatorOf, hname.symm]
    · simp [Definition.instanceOf, htc]
    · simp [Definition.generatorOf, htc]

lemma defineAll {uidCtr : ℕ} (heq : (TEnv.empty uidCtr).defineAll off ds = some tenv) : tenv.DefinedBy ds := by
  induction ds using List.reverseRecOn generalizing tenv with
  | nil =>
    cases heq
    exact ⟨fun name => by simp [TEnv.empty], nofun, fun _ => rfl, fun _ => rfl⟩
  | append_singleton ds d ih =>
    rw [TEnv.defineAll, List.foldlM_append] at heq
    obtain ⟨tenv₁, htenv₁, heq⟩ := Option.bind_eq_some_iff.mp heq
    obtain ⟨tenv₂, htenv₂, heq⟩ := Option.bind_eq_some_iff.mp heq
    cases heq
    exact (ih htenv₁).define htenv₂

end TEnv.DefinedBy

/-! ### Queries -/

variable {qs : List ConstraintPtr} {bs : List Bool}

variable (off) in
/-- All instances that are stored are derivable. -/
def TEnv.Stored (tenv₀ tenv : TEnv) : Prop :=
  ∀ name tc mts, tenv.unquals name = some tc → (TypeMap.lookup off mts tc.tcinstdb).isSome →
    Derivable tenv₀.Fact tenv₀.Rule ⟨name, mts⟩

lemma Stage.stored (h : Stage off tenv₀ [] tenv) : tenv₀.Stored off tenv := by
  intro name tc mts htc hmts
  obtain ⟨tc₀, htc₀⟩ := h.old name tc htc
  obtain ⟨tc', htc', hcur⟩ := h.current name tc₀ htc₀
  obtain rfl := Option.some.inj (htc.symm.trans htc')
  exact hcur.sound mts hmts

lemma satisfiedAll_meets (hwf : tenv₀.WellFormed) (hindexed : tenv₀.Indexed off)
    (hclosed : ∀ q ∈ qs, ∀ t ∈ q.arguments, isMonoSingular t = true) (hqs : ∀ q ∈ qs, tenv₀.Settles q) (fuel : ℕ) :
    (tenv₀.satisfiedAll off o fuel qs).Meets (fun r => Stage off tenv₀ [] r.1 ∧
      List.Forall₂ (fun q b => b = true ↔ Derivable tenv₀.Fact tenv₀.Rule q) qs r.2) True := by
  apply Outcome.Meets.foldOver (fun done (r : TEnv × List Bool) => Stage off tenv₀ [] r.1 ∧
    List.Forall₂ (fun q b => b = true ↔ Derivable tenv₀.Fact tenv₀.Rule q) done r.2) ⟨.start hindexed, .nil⟩
  rintro done q ⟨tenv, bs⟩ hq ⟨h, hbs⟩
  rw [Outcome.bind_def]
  cases hknown : tenv₀.unquals q.name with
  | none =>
    have hnone : tenv.unquals q.name = none := by
      rw [Option.eq_none_iff_forall_ne_some]
      intro tc htc
      obtain ⟨tc₀, htc₀⟩ := h.old _ _ htc
      rw [hknown] at htc₀
      cases htc₀
    cases fuel with
    | zero => exact trivial
    | succ fuel =>
      rw [TEnv.satisfied, hnone]
      exact trivial
  | some tc₀ =>
    have hanswer : Answers off tenv₀ [] q (TEnv.satisfied off o fuel tenv q) :=
      satisfied_meets hwf hindexed (hqs q hq) fuel .start (hclosed q hq) ⟨tc₀, hknown⟩ h
    apply (hanswer.mono (fun _ => id) False.elim).bind
    rintro ⟨tenv', _⟩ ⟨h', b, rfl, hb⟩
    refine ⟨h', List.rel_append hbs (.cons ?_ .nil)⟩
    rw [hb, TEnv.Held]
    simp

def onInt (name : String) : ConstraintPtr := ⟨ascii name, [app (.prim (ascii "int")) []]⟩

/-- `A` needs `B` and `C`, and `B` needs `A`. There is nothing for `C`. -/
def loopDefinitions : List Definition :=
  [.tclass (ascii "A") 1 [], .tclass (ascii "B") 1 [], .tclass (ascii "C") 1 [],
    .instFn (ascii "A") [onInt "B", onInt "C"] [app (.prim (ascii "int")) []],
    .instFn (ascii "B") [onInt "A"] [app (.prim (ascii "int")) []]]

def loopEnv : TEnv := ((TEnv.empty 0).defineAll (fun _ _ _ => 0) loopDefinitions).getD (TEnv.empty 0)

lemma loopEnv_eq : (TEnv.empty 0).defineAll (fun _ _ _ => 0) loopDefinitions = some loopEnv := rfl

lemma loop_generators {name : Bytes} {tc : TClass} (htc : loopEnv.unquals name = some tc) :
    (tc.tcinstancefns.map fun f => (f.reqs, f.itys)) =
      if name = ascii "A" then [([onInt "B", onInt "C"], [app (.prim (ascii "int")) []])]
      else if name = ascii "B" then [([onInt "A"], [app (.prim (ascii "int")) []])] else [] := by
  have h := (TEnv.DefinedBy.defineAll loopEnv_eq).generators name
  rw [htc, Option.map_some, Option.getD_some] at h
  rw [h]
  by_cases hA : name = ascii "A"
  · subst hA
    decide
  · by_cases hB : name = ascii "B"
    · subst hB
      decide
    · simp [loopDefinitions, Definition.generatorOf, hA, hB, Ne.symm hA, Ne.symm hB]

lemma loop_rule {c : ConstraintPtr} {reqs : List ConstraintPtr} (h : loopEnv.Rule c reqs) :
    c = onInt "A" ∧ reqs = [onInt "B", onInt "C"] ∨ c = onInt "B" ∧ reqs = [onInt "A"] := by
  obtain ⟨tc, htc, f, hf, σ, hσ, rfl⟩ := h
  have hmem : (f.reqs, f.itys) ∈ tc.tcinstancefns.map fun f => (f.reqs, f.itys) := List.mem_map_of_mem hf
  rw [loop_generators htc] at hmem
  obtain ⟨name, args⟩ := c
  dsimp only at hmem hσ
  split_ifs at hmem with hA hB
  · obtain ⟨hreqs, hitys⟩ := Prod.mk.inj (List.mem_singleton.mp hmem)
    rw [hitys, List.map_singleton, subst_app] at hσ
    rw [hreqs, hA, ← hσ]
    exact .inl ⟨rfl, by simp [ConstraintSet.Constraint.subst, onInt]⟩
  · obtain ⟨hreqs, hitys⟩ := Prod.mk.inj (List.mem_singleton.mp hmem)
    rw [hitys, List.map_singleton, subst_app] at hσ
    rw [hreqs, hB, ← hσ]
    exact .inr ⟨rfl, by simp [ConstraintSet.Constraint.subst, onInt]⟩
  · cases hmem

lemma loop_fact (c : ConstraintPtr) : ¬ loopEnv.Fact c := by
  rintro ⟨tc, htc, hmem⟩
  have h := (TEnv.DefinedBy.defineAll loopEnv_eq).instances c.name
  rw [htc, Option.map_some, Option.getD_some] at h
  rw [h] at hmem
  simp [loopDefinitions, Definition.instanceOf] at hmem

/-- Nothing is derivable. -/
lemma loop_derivable (c : ConstraintPtr) : ¬ Derivable loopEnv.Fact loopEnv.Rule c := by
  have hC : ¬ Derivable loopEnv.Fact loopEnv.Rule (onInt "C") := by
    intro h
    obtain ⟨reqs, hreqs, -⟩ := (derivable_iff.mp h).resolve_left (loop_fact _)
    rcases loop_rule hreqs with ⟨heq, -⟩ | ⟨heq, -⟩
    · exact absurd heq (by decide)
    · exact absurd heq (by decide)
  have hA : ¬ Derivable loopEnv.Fact loopEnv.Rule (onInt "A") := by
    intro h
    obtain ⟨reqs, hreqs, hall⟩ := (derivable_iff.mp h).resolve_left (loop_fact _)
    rcases loop_rule hreqs with ⟨-, rfl⟩ | ⟨heq, -⟩
    · exact hC (hall _ (by simp))
    · exact absurd heq (by decide)
  intro h
  obtain ⟨reqs, hreqs, hall⟩ := (derivable_iff.mp h).resolve_left (loop_fact _)
  rcases loop_rule hreqs with ⟨-, rfl⟩ | ⟨-, rfl⟩
  · exact hC (hall _ (by simp))
  · exact hA (hall _ (by simp))

lemma loop_generator {name : Bytes} {tc : TClass} (htc : loopEnv.unquals name = some tc) {f : TCInstanceFn}
    (hf : f ∈ tc.tcinstancefns) : f.itys = [app (.prim (ascii "int")) []] ∧
      (f.reqs = [onInt "B", onInt "C"] ∨ f.reqs = [onInt "A"]) := by
  have hmem : (f.reqs, f.itys) ∈ tc.tcinstancefns.map fun f => (f.reqs, f.itys) := List.mem_map_of_mem hf
  rw [loop_generators htc] at hmem
  split_ifs at hmem
  · obtain ⟨hreqs, hitys⟩ := Prod.mk.inj (List.mem_singleton.mp hmem)
    exact ⟨hitys, .inl hreqs⟩
  · obtain ⟨hreqs, hitys⟩ := Prod.mk.inj (List.mem_singleton.mp hmem)
    exact ⟨hitys, .inr hreqs⟩
  · cases hmem

lemma loop_wellFormed : loopEnv.WellFormed := by
  intro name tc htc
  have hdefined := TEnv.DefinedBy.defineAll loopEnv_eq
  have hground : tc.tcinstances = [] := by
    have h := hdefined.instances name
    rw [htc, Option.map_some, Option.getD_some] at h
    rw [h]
    simp [loopDefinitions, Definition.instanceOf]
  have hreqs : tc.reqs = [] := by
    have h := hdefined.tclass name tc htc
    simp only [loopDefinitions, List.mem_cons, Definition.tclass.injEq, reduceCtorEq, List.not_mem_nil, or_false] at h
    rcases h with h | h | h
    · exact h.2.2
    · exact h.2.2
    · exact h.2.2
  constructor
  · rw [hground]
    exact nofun
  · intro f hf
    obtain ⟨hitys, hreqs⟩ := loop_generator htc hf
    have hnames : f.names = [] := by
      rw [TCInstanceFn.names, hitys]
      rcases hreqs with hreqs | hreqs
      · rw [hreqs]
        decide
      · rw [hreqs]
        decide
    have hterms : ∀ t ∈ f.itys ++ f.reqs.flatMap fun c => c.arguments, t = app (.prim (ascii "int")) [] := by
      rw [hitys]
      rcases hreqs with hreqs | hreqs
      · simp [hreqs, onInt]
      · simp [hreqs, onInt]
    constructor
    · intro n _
      rw [hnames]
      exact List.not_mem_nil
    · intro t ht
      rw [hterms t ht]
      exact .app rfl nofun
    · intro c hc x hx
      obtain ⟨t, ht, hx⟩ := mem_typesVars.mp hx
      rw [hterms t (List.mem_append_right _ (List.mem_flatMap.mpr ⟨c, hc, ht⟩))] at hx
      cases hx
  · have hlen : tc.tcinstancefns.length ≤ 1 := by
      rw [← List.length_map fun f : TCInstanceFn => (f.reqs, f.itys), loop_generators htc]
      split_ifs
      · exact Nat.le_refl _
      · exact Nat.le_refl _
      · exact Nat.zero_le _
    match hfns : tc.tcinstancefns, hlen with
    | [], _ => exact .nil
    | [f], _ => exact List.pairwise_singleton _ f
  · rw [hground]
    exact fun _ _ => nofun
  · rw [hreqs, List.nil_append]
    intro c hc
    obtain ⟨f, hf, hc⟩ := List.mem_flatMap.mp hc
    refine (hdefined.defined c.name).mpr ⟨1, [], ?_⟩
    rcases (loop_generator htc hf).2 with hreqs | hreqs
    · rw [hreqs, List.mem_pair] at hc
      rcases hc with rfl | rfl
      · simp [loopDefinitions, onInt]
      · simp [loopDefinitions, onInt]
    · rw [hreqs, List.mem_singleton] at hc
      rw [hc]
      simp [loopDefinitions, onInt]

/-- A query of `B` meets `A` while `B` is tested, and then `C`. -/
lemma loop_searched {path : List ConstraintPtr} {c : ConstraintPtr}
    (h : Searched loopEnv.Fact loopEnv.Rule (onInt "B") path c) :
    path = [] ∧ c = onInt "B" ∨ path = [onInt "B"] ∧ c = onInt "A" ∨
      path = [onInt "A", onInt "B"] ∧ (c = onInt "B" ∨ c = onInt "C") := by
  induction h with
  | start => exact .inl ⟨rfl, rfl⟩
  | @premise path c r pre post _ hpath _ hrule _ ih =>
    have hr : r ∈ pre ++ r :: post := List.mem_append_right _ List.mem_cons_self
    rcases ih with ⟨rfl, rfl⟩ | ⟨rfl, rfl⟩ | ⟨rfl, rfl | rfl⟩
    · rcases loop_rule hrule with ⟨heq, -⟩ | ⟨-, heq⟩
      · exact absurd heq (by decide)
      · rw [heq, List.mem_singleton] at hr
        exact .inr (.inl ⟨rfl, hr⟩)
    · rcases loop_rule hrule with ⟨-, heq⟩ | ⟨heq, -⟩
      · rw [heq] at hr
        exact .inr (.inr ⟨rfl, by simpa using hr⟩)
      · exact absurd heq (by decide)
    · exact absurd (by simp) hpath
    · rcases loop_rule hrule with ⟨heq, -⟩ | ⟨heq, -⟩
      · exact absurd heq (by decide)
      · exact absurd heq (by decide)

lemma loop_sharp (name : String) : loopEnv.Sharp (onInt name) := by
  intro tc htc f hf _ _
  rw [(loop_generator htc hf).1]
  exact ⟨var, by simp [onInt]⟩

lemma loop_settles : loopEnv.Settles (onInt "B") := by
  constructor
  · intro path c hc hpath _ reqs hreqs
    rcases loop_searched hc with ⟨rfl, rfl⟩ | ⟨rfl, rfl⟩ | ⟨rfl, rfl | rfl⟩
    · rcases loop_rule hreqs with ⟨heq, -⟩ | ⟨-, rfl⟩
      · exact absurd heq (by decide)
      · exact ⟨onInt "A", by simp, loop_derivable _, by decide⟩
    · rcases loop_rule hreqs with ⟨-, rfl⟩ | ⟨heq, -⟩
      · exact ⟨onInt "C", by simp, loop_derivable _, by decide⟩
      · exact absurd heq (by decide)
    · exact absurd (by simp) hpath
    · rcases loop_rule hreqs with ⟨heq, -⟩ | ⟨heq, -⟩
      · exact absurd heq (by decide)
      · exact absurd heq (by decide)
  · intro path c hc _ _
    rcases loop_searched hc with ⟨-, rfl⟩ | ⟨-, rfl⟩ | ⟨-, rfl | rfl⟩
    · exact loop_sharp "B"
    · exact loop_sharp "A"
    · exact loop_sharp "B"
    · exact loop_sharp "C"

def onIntAnswers (qs : List ConstraintPtr) : Outcome (TEnv × List Bool) :=
  loopEnv.satisfiedAll (fun _ _ _ => 0) TypeMap.listOrder 8 qs

end Hobbes.Lang
