import Hobbes.Lang.Constraints

/-!
# What becomes of constraints

As long as constraints are inserted in time, a set of constraints is reduced by its dependencies: the same constraints
are stored, none of them twice, and the unifier solves what the dependencies force and nothing else.
-/

namespace Hobbes.Lang

open Core Term

namespace ConstraintSet

/-! ### Constraints after a substitution -/

section

variable {θ θ' σ : Bytes → TyTerm} {E : Equations TyCtor Bytes} {c d e : Constraint} {i : ℕ}

lemma Alike.symm (h : Alike c d) : Alike d c := ⟨h.1.symm, h.2.symm⟩

lemma subst_eq_iff : c.subst θ = d.subst θ ↔ Alike c d ∧ ∀ i, AgreeAt θ c d i := by
  have hargs : c.arguments.map (Term.subst θ) = d.arguments.map (Term.subst θ) ↔ ∀ i, AgreeAt θ c d i := by
    rw [List.ext_getElem?_iff]
    simp only [List.getElem?_map, AgreeAt]
  rw [Constraint.subst, Constraint.subst, Constraint.mk.injEq, hargs, Alike, and_assoc]
  refine and_congr_right fun _ => ⟨fun h => ⟨?_, h⟩, And.right⟩
  have hlen := congrArg List.length (hargs.mpr h)
  rwa [List.length_map, List.length_map] at hlen

lemma subst_subst_map (h : Absorbs σ θ) (ts : List TyTerm) :
    (ts.map (Term.subst θ)).map (Term.subst σ) = ts.map (Term.subst σ) := by
  rw [List.map_map]
  exact List.map_congr_left fun t _ => h.subst t

lemma subst_eq_of_absorbs (h : Absorbs σ θ) (hcd : c.subst θ = d.subst θ) : c.subst σ = d.subst σ := by
  rw [Constraint.subst, Constraint.subst, Constraint.mk.injEq] at hcd ⊢
  rw [← subst_subst_map h, hcd.2, subst_subst_map h]
  exact ⟨hcd.1, rfl⟩

lemma AgreeAt.of_absorbs (h : Absorbs σ θ) (hcd : AgreeAt θ c d i) : AgreeAt σ c d i := by
  have hagree := congrArg (Option.map (Term.subst σ)) hcd
  rw [Option.map_map, Option.map_map] at hagree
  have hmap : Term.subst σ ∘ Term.subst θ = Term.subst σ := funext h.subst
  rwa [hmap] at hagree

lemma known_iff (h : Extends θ E θ') : Known θ E c d i ↔ AgreeAt θ' c d i :=
  ⟨fun hknown => hknown θ' h.absorbs h.solves, fun hagree _ hσ hE =>
    hagree.of_absorbs ((h.absorbs_iff _).mpr ⟨hσ, hE⟩)⟩

lemma Forced.mono {classes : Bytes → Option (List FunDep)} {cs cs' : List Constraint} (h : Forced classes cs θ E)
    (hsub : cs ⊆ cs') : Forced classes cs' θ E := by
  induction h with
  | nil => exact .nil
  | append _ hc hd halike hfds hfd hinputs ih => exact .append ih (hsub hc) (hsub hd) halike hfds hfd hinputs

end

/-! ### What is kept -/

lemma append_flatMap {α β : Type} {P : List β → Prop} {as : List α} {f : α → List β} {bs : List β} (hbs : P bs)
    (h : ∀ a ∈ as, ∀ bs', P (bs ++ bs') → P (bs ++ bs' ++ f a)) : P (bs ++ as.flatMap f) := by
  induction as generalizing bs with
  | nil => rwa [List.flatMap_nil, List.append_nil]
  | cons a as ih =>
    obtain ⟨ha, has⟩ := List.forall_mem_cons.mp h
    have hfirst := ha [] (by rwa [List.append_nil])
    rw [List.append_nil] at hfirst
    rw [List.flatMap_cons, ← List.append_assoc]
    refine ih hfirst fun a' ha' bs' hbs' => ?_
    rw [List.append_assoc bs] at hbs' ⊢
    exact has a' ha' (f a ++ bs') hbs'

section

variable {off : List Bytes → List TyTerm → ℕ → ℤ} {classes : Bytes → Option (List FunDep)} {cs : List Constraint}
  {csts csts' : CSet} {s s' : MonoTypeUnifier} {θ₀ θ θ' : Bytes → TyTerm} {fds : List FunDep} {c d : Constraint}

/-- What is kept for constraints: each is under its arguments as they were once substituted, and no two are equal. -/
structure Keeping (off : List Bytes → List TyTerm → ℕ → ℤ) (csts : CSet) (θ : Bytes → TyTerm) : Prop where
  ordered : csts.Ordered (monoTypeOrd off)
  key : ∀ mts d, TypeMap.lookup off mts csts = some d →
    ∃ args, mts = typeSeqForm ⟨d.name, args⟩ ∧ args.map (Term.subst θ) = d.arguments.map (Term.subst θ)
  distinct : ∀ mts mts' d e, mts ≠ mts' → TypeMap.lookup off mts csts = some d →
    TypeMap.lookup off mts' csts = some e → d.subst θ ≠ e.subst θ

namespace Keeping

lemma mem_constraints (h : Keeping off csts θ) :
    d ∈ constraints csts ↔ ∃ mts, TypeMap.lookup off mts csts = some d := h.ordered.mem_values

/-- What is stored under a constraint's path is equal to it. -/
lemma subst_eq (h : Keeping off csts θ) {args : List TyTerm} {name : Bytes}
    (hd : TypeMap.lookup off (typeSeqForm ⟨name, args⟩) csts = some d) :
    Constraint.subst θ ⟨name, args⟩ = d.subst θ := by
  obtain ⟨args', hpath, hargs⟩ := h.key _ d hd
  obtain ⟨⟨rfl, -⟩, rfl⟩ : (name = d.name ∧ True) ∧ args = args' := by
    simpa [typeSeqForm] using hpath
  exact congrArg (Constraint.mk d.name) hargs

/-- What is found agrees on the inputs. -/
lemma mem_find (h : Keeping off csts θ) {vs : List ℕ}
    (hd : d ∈ TypeMap.find off (focusOnFundep vs (typeSeqForm c)) csts) :
    d ∈ constraints csts ∧ Alike c d ∧ ∀ i ∈ vs, AgreeAt θ c d i := by
  obtain ⟨mts, hmts, hlen, hpath⟩ := TypeMap.exists_of_mem_find h.ordered hd
  obtain ⟨args, rfl, hargs⟩ := h.key mts d hmts
  have hname : c.name = d.name := by
    have hhead := hpath 0 (.app (.tstring c.name) []) (by
      rw [focusOnFundep, List.getElem?_mapIdx, typeSeqForm, List.getElem?_cons_zero, Option.map_some,
        if_pos (.inl rfl)])
    rw [typeSeqForm, List.getElem?_cons_zero, Option.some.injEq, Term.app.injEq, TyCtor.tstring.injEq] at hhead
    exact hhead.1.symm
  have hlen' : args.length = c.arguments.length := by
    rw [focusOnFundep, List.length_mapIdx, typeSeqForm, typeSeqForm] at hlen
    exact Nat.succ.inj hlen
  have hlend : c.arguments.length = d.arguments.length := by
    have hmap := congrArg List.length hargs
    rw [List.length_map, List.length_map] at hmap
    exact hlen'.symm.trans hmap
  refine ⟨h.mem_constraints.mpr ⟨_, hmts⟩, ⟨hname, hlend⟩, fun i hi => ?_⟩
  have hagree : args[i]?.map (Term.subst θ) = d.arguments[i]?.map (Term.subst θ) := by
    rw [← List.getElem?_map, hargs, List.getElem?_map]
  rw [AgreeAt, ← hagree]
  cases ht : c.arguments[i]? with
  | none => rw [List.getElem?_eq_none (hlen'.le.trans (List.getElem?_eq_none_iff.mp ht))]
  | some t =>
    have hthere := hpath (i + 1) t (by
      rw [focusOnFundep, List.getElem?_mapIdx, typeSeqForm, List.getElem?_cons_succ, ht, Option.map_some,
        if_pos (.inr hi)])
    rw [typeSeqForm, List.getElem?_cons_succ] at hthere
    rw [hthere]

/-- What is found is forced. -/
lemma forced_found (h : Keeping off csts θ) {E : Equations TyCtor Bytes} (hE : Forced classes cs θ₀ E)
    (hθ : ∀ σ, Absorbs σ θ ↔ Absorbs σ θ₀ ∧ Solves σ E) (hfds : classes c.name = some fds)
    (hsub : constraints csts ⊆ cs) : Forced classes (c :: cs) θ₀ (E ++ found off fds csts c) := by
  refine append_flatMap (hE.mono (List.subset_cons_self c cs)) fun fd hfd E' hE' => ?_
  refine append_flatMap hE' fun d hd E'' hE'' => ?_
  obtain ⟨hmem, halike, hinputs⟩ := h.mem_find hd
  refine .append hE'' List.mem_cons_self (List.mem_cons_of_mem c (hsub hmem)) halike hfds hfd fun i hi σ hσ hEσ => ?_
  rw [solves_append, solves_append] at hEσ
  exact (hinputs i hi).of_absorbs ((hθ σ).mpr ⟨hσ, hEσ.1.1⟩)

/-- Nothing is lost by further equations that make no two constraints equal. -/
lemma extend (h : Keeping off csts θ) (hext : Absorbs θ' θ)
    (hapart : ∀ mts mts' d e, mts ≠ mts' → TypeMap.lookup off mts csts = some d →
      TypeMap.lookup off mts' csts = some e → d.subst θ' ≠ e.subst θ') : Keeping off csts θ' where
  ordered := h.ordered
  key mts d hd := by
    obtain ⟨args, hmts, hargs⟩ := h.key mts d hd
    refine ⟨args, hmts, ?_⟩
    rw [← subst_subst_map hext, hargs, subst_subst_map hext]
  distinct := hapart

/-- A new constraint is kept under its arguments as they are substituted. -/
lemma insert (h : Keeping off csts θ) (hidem : Absorbs θ θ)
    (hnew : ∀ mts d, TypeMap.lookup off mts csts = some d → c.subst θ ≠ d.subst θ) :
    Keeping off (TypeMap.insert off (typeSeqForm (c.subst θ)) c csts) θ ∧
      ∀ d, d ∈ constraints (TypeMap.insert off (typeSeqForm (c.subst θ)) c csts) ↔ d = c ∨ d ∈ constraints csts := by
  have hlookup : ∀ mts, TypeMap.lookup off mts (TypeMap.insert off (typeSeqForm (c.subst θ)) c csts) =
      if mts = typeSeqForm (c.subst θ) then some c else TypeMap.lookup off mts csts :=
    fun mts => h.ordered.lookup_insert _ mts c
  have hnone : TypeMap.lookup off (typeSeqForm (c.subst θ)) csts = none := by
    cases hd : TypeMap.lookup off (typeSeqForm (c.subst θ)) csts with
    | none => rfl
    | some d =>
      refine absurd ?_ (hnew _ d hd)
      rw [← h.subst_eq hd]
      exact congrArg (Constraint.mk c.name) (subst_subst_map hidem c.arguments).symm
  have hkeeping : Keeping off (TypeMap.insert off (typeSeqForm (c.subst θ)) c csts) θ := by
    refine ⟨h.ordered.insert _ c, fun mts d hd => ?_, fun mts mts' d e hne hd he => ?_⟩
    · rw [hlookup] at hd
      split_ifs at hd with hmts
      · cases hd
        exact ⟨_, hmts, subst_subst_map hidem c.arguments⟩
      · exact h.key mts d hd
    · rw [hlookup] at hd he
      split_ifs at hd he with hmts hmts' hmts'
      · exact absurd (hmts.trans hmts'.symm) hne
      · cases hd
        exact hnew _ e he
      · cases he
        exact (hnew _ d hd).symm
      · exact h.distinct mts mts' d e hne hd he
  refine ⟨hkeeping, fun d => ?_⟩
  rw [hkeeping.mem_constraints, h.mem_constraints]
  constructor
  · rintro ⟨mts, hd⟩
    rw [hlookup] at hd
    split_ifs at hd with hmts
    · exact .inl (Option.some.inj hd).symm
    · exact .inr ⟨mts, hd⟩
  · rintro (rfl | ⟨mts, hd⟩)
    · exact ⟨_, (hlookup _).trans (if_pos rfl)⟩
    · refine ⟨mts, (hlookup mts).trans ((if_neg fun hmts => ?_).trans hd)⟩
      rw [hmts, hnone] at hd
      cases hd

end Keeping

/-! ### One insertion -/

/-- What is found is solved. -/
lemma applyFundeps_meets {root : TyTerm → TyTerm} (h : StandsFor s root θ) (fuel : ℕ)
    (hsolution : ∃ σ, Absorbs σ θ ∧ Solves σ (found off fds csts c)) :
    (Outcome.foldOver (applyFundep off fuel (typeSeqForm c) csts) s fds).Meets
      (StandsFor.SolvedFrom s θ (found off fds csts c)) True := by
  refine h.foldOver_solves hsolution fun fd _ s root θ hs hfd => hs.foldOver_solves hfd fun d _ s root θ hs hd => ?_
  rw [outputs] at hd ⊢
  simp only [unifyOutputs, typeSeqForm, List.getElem?_cons_succ]
  cases ht : c.arguments[fd.2]? with
  | none => exact trivial
  | some t =>
    cases hu : d.arguments[fd.2]? with
    | none => exact trivial
    | some u =>
      rw [ht, hu] at hd
      exact (hs.unify_solves fuel hd).mono (fun _ => id) False.elim

/-- If a constraint is inserted in time, what is closed stays so. -/
lemma InTime.closed (h : InTime off classes fds csts θ c) (hfds : classes c.name = some fds)
    (hclosed : Closed classes θ (constraints csts)) (hext : Extends θ (found off fds csts c) θ') :
    Closed classes θ' (c :: constraints csts) := by
  intro d hd e he halike fds' hfds' fd hfd hinputs
  have hknown := h.settled d hd e he halike fds' hfds' fd hfd fun i hi => (known_iff hext).mpr (hinputs i hi)
  rcases hknown with hagree | hknown
  · -- They agreed before.
    rcases List.mem_cons.mp hd with rfl | hd'
    · rcases List.mem_cons.mp he with rfl | he'
      · rfl
      · obtain rfl := Option.some.inj (hfds.symm.trans hfds')
        exact (known_iff hext).mp (h.complete e he' halike fd hfd hagree)
    · rcases List.mem_cons.mp he with rfl | he'
      · obtain rfl := Option.some.inj (hfds.symm.trans (halike.1 ▸ hfds'))
        exact ((known_iff hext).mp (h.complete d hd' halike.symm fd hfd fun i hi => (hagree i hi).symm)).symm
      · exact (hclosed d hd' e he' halike fds' hfds' fd hfd hagree).of_absorbs hext.absorbs
  · exact (known_iff hext).mp hknown

/-- A key in which no variable is bound or replaced is what substitution makes of it. -/
lemma InTime.map_subst_eq (h : InTime off classes fds csts θ c) (hext : Extends θ (found off fds csts c) θ')
    {mts : List TyTerm} (hd : TypeMap.lookup off mts csts = some d) (hcd : c.subst θ' = d.subst θ') :
    mts.map (Term.subst θ') = mts := by
  obtain ⟨halike, hagree⟩ := subst_eq_iff.mp hcd
  have hcurrent := h.current mts d hd halike fun i => (known_iff hext).mpr (hagree i)
  have hfixed : ∀ x ∈ typesVars mts, θ' x = var x := by
    intro x hx
    obtain ⟨hθ, hleast⟩ := hcurrent x hx
    have hsame : (θ' x).subst θ = θ' x :=
      (subst_congr fun y hy => hext.bound y (eq_var_of_subst_eq (hext.idem x) y hy)).trans (subst_id _)
    obtain ⟨z, hz, hxz⟩ := hleast (θ' x) hsame fun σ hσ hE => ((hext.absorbs_iff σ).mpr ⟨hσ, hE⟩ x).symm
    rw [hz, List.le_antisymm hxz (hext.least x z hθ hz)]
  refine (List.map_congr_left fun t ht => ?_).trans (List.map_id mts)
  exact (subst_congr fun x hx => hfixed x (mem_typesVars.mpr ⟨t, ht, hx⟩)).trans (subst_id t)

/-- What holds after constraints have been inserted in time, by a unifier that stood for `θ₀`. -/
structure Inserted (off : List Bytes → List TyTerm → ℕ → ℤ) (classes : Bytes → Option (List FunDep))
    (cs : List Constraint) (θ₀ : Bytes → TyTerm) (csts : CSet) (s : MonoTypeUnifier) (θ : Bytes → TyTerm) : Prop where
  stands : ∃ root, StandsFor s root θ
  unmarked : ∀ k, ¬ visitedAt s k
  keeping : Keeping off csts θ
  subset : constraints csts ⊆ cs
  covers : ∀ c ∈ cs, ∃ d ∈ constraints csts, c.subst θ = d.subst θ
  closed : Closed classes θ (constraints csts)
  forced : ∃ E, Forced classes cs θ₀ E ∧ ∀ σ, Absorbs σ θ ↔ Absorbs σ θ₀ ∧ Solves σ E

namespace Inserted

lemma reads (h : Inserted off classes cs θ₀ csts s θ) : Reads s θ := by
  obtain ⟨root, hs⟩ := h.stands
  exact hs.reads h.unmarked

lemma reduced (h : Inserted off classes cs θ₀ csts s θ) : Reduced classes cs (constraints csts) θ₀ θ where
  same c := by
    rw [List.mem_map, List.mem_map]
    constructor
    · rintro ⟨d, hd, rfl⟩
      exact ⟨d, h.subset hd, rfl⟩
    · rintro ⟨d, hd, rfl⟩
      obtain ⟨e, he, hde⟩ := h.covers d hd
      exact ⟨e, he, hde.symm⟩
  distinct := h.keeping.ordered.pairwise_values h.keeping.distinct
  closed := h.closed
  forced := h.forced

/-- A constraint that is stored already is left out. -/
lemma skip (h : Inserted off classes cs θ₀ csts s θ) (hd : TypeMap.lookup off (typeSeqForm c) csts = some d) :
    Inserted off classes (cs ++ [c]) θ₀ csts s θ where
  stands := h.stands
  unmarked := h.unmarked
  keeping := h.keeping
  subset := List.Subset.trans h.subset (List.subset_append_left cs [c])
  covers := List.forall_mem_append.mpr ⟨h.covers, List.forall_mem_singleton.mpr
    ⟨d, h.keeping.mem_constraints.mpr ⟨_, hd⟩, h.keeping.subst_eq hd⟩⟩
  closed := h.closed
  forced := by
    obtain ⟨E, hE, hθ⟩ := h.forced
    exact ⟨E, hE.mono (List.subset_append_left cs [c]), hθ⟩

/-- A constraint is inserted in time, where `s'` has solved what is found and substituted into its arguments. -/
lemma store (h : Inserted off classes cs θ₀ csts s θ) (hfds : classes c.name = some fds)
    (hintime : InTime off classes fds csts θ c) (hext : Extends θ (found off fds csts c) θ') {root : TyTerm → TyTerm}
    (hs' : StandsFor s' root θ') (hmarks : ∀ k, ¬ visitedAt s' k) :
    Inserted off classes (cs ++ [c]) θ₀
      (if (TypeMap.lookup off (typeSeqForm (c.subst θ')) csts).isSome then csts
        else TypeMap.insert off (typeSeqForm (c.subst θ')) c csts) s' θ' := by
  have hkeeping : Keeping off csts θ' := h.keeping.extend hext.absorbs fun mts mts' d e hne hd he hde => by
    obtain ⟨halike, hagree⟩ := subst_eq_iff.mp hde
    exact hintime.apart mts mts' d e hne hd he halike fun i => (known_iff hext).mpr (hagree i)
  have hcovers : ∀ c' ∈ cs, ∃ d ∈ constraints csts, c'.subst θ' = d.subst θ' := fun c' hc' => by
    obtain ⟨d, hd, hcd⟩ := h.covers c' hc'
    exact ⟨d, hd, subst_eq_of_absorbs hext.absorbs hcd⟩
  have hclosed := hintime.closed hfds h.closed hext
  have hsub : constraints csts ⊆ cs ++ [c] := List.Subset.trans h.subset (List.subset_append_left cs [c])
  have hforced : ∃ E, Forced classes (cs ++ [c]) θ₀ E ∧ ∀ σ, Absorbs σ θ' ↔ Absorbs σ θ₀ ∧ Solves σ E := by
    obtain ⟨E, hE, hθ⟩ := h.forced
    refine ⟨E ++ found off fds csts c, (h.keeping.forced_found hE hθ hfds h.subset).mono ?_, fun σ => ?_⟩
    · exact List.cons_subset.mpr ⟨List.mem_append_right cs List.mem_cons_self, List.subset_append_left cs [c]⟩
    · rw [hext.absorbs_iff, hθ, solves_append, and_assoc]
  cases hlookup : TypeMap.lookup off (typeSeqForm (c.subst θ')) csts with
  | some d =>
    refine ⟨⟨root, hs'⟩, hmarks, hkeeping, hsub, ?_, ?_, hforced⟩
    · refine List.forall_mem_append.mpr ⟨hcovers, List.forall_mem_singleton.mpr
        ⟨d, hkeeping.mem_constraints.mpr ⟨_, hlookup⟩, ?_⟩⟩
      rw [← hkeeping.subst_eq hlookup]
      exact congrArg (Constraint.mk c.name) (subst_subst_map hext.idem c.arguments).symm
    · exact fun d hd e he => hclosed d (List.mem_cons_of_mem c hd) e (List.mem_cons_of_mem c he)
  | none =>
    -- The key of an equal constraint would have been found.
    have hnew : ∀ mts d, TypeMap.lookup off mts csts = some d → c.subst θ' ≠ d.subst θ' := by
      intro mts d hd hcd
      obtain ⟨args, rfl, hargs⟩ := hkeeping.key mts d hd
      have hkey := hintime.map_subst_eq hext hd hcd
      rw [typeSeqForm, List.map_cons, List.cons.injEq, hargs] at hkey
      have hpath : typeSeqForm (c.subst θ') = typeSeqForm ⟨d.name, args⟩ := by
        rw [hcd]
        exact congrArg (fun us => typeSeqForm ⟨d.name, us⟩) hkey.2
      rw [hpath, hd] at hlookup
      cases hlookup
    obtain ⟨hinsert, hmem⟩ := hkeeping.insert hext.idem hnew
    have hmem' : ∀ {d}, d ∈ constraints (TypeMap.insert off (typeSeqForm (c.subst θ')) c csts) ↔
        d ∈ c :: constraints csts := fun {d} => (hmem d).trans List.mem_cons.symm
    refine ⟨⟨root, hs'⟩, hmarks, hinsert, fun d hd => ?_, ?_, fun d hd e he => ?_, hforced⟩
    · rcases List.mem_cons.mp (hmem'.mp hd) with rfl | hd
      · exact List.mem_append_right cs List.mem_cons_self
      · exact hsub hd
    · refine List.forall_mem_append.mpr ⟨fun c' hc' => ?_, List.forall_mem_singleton.mpr
        ⟨c, hmem'.mpr List.mem_cons_self, rfl⟩⟩
      obtain ⟨d, hd, hcd⟩ := hcovers c' hc'
      exact ⟨d, hmem'.mpr (List.mem_cons_of_mem c hd), hcd⟩
    · exact hclosed d (hmem'.mp hd) e (hmem'.mp he)

/-- One more constraint is inserted. -/
lemma insert {fuel : ℕ} (h : Inserted off classes cs θ₀ csts s θ)
    (hintime : TypeMap.lookup off (typeSeqForm c) csts = none → ∀ fds, classes c.name = some fds →
      InTime off classes fds csts θ c)
    (hrun : ConstraintSet.insert off classes fuel (csts, s) c = .returns (csts', s')) :
    ∃ θ', Inserted off classes (cs ++ [c]) θ₀ csts' s' θ' := by
  rw [ConstraintSet.insert] at hrun
  cases hlookup : TypeMap.lookup off (typeSeqForm c) csts with
  | some d =>
    simp only [hlookup, Option.isSome_some, if_true] at hrun
    cases hrun
    exact ⟨θ, h.skip hlookup⟩
  | none =>
    cases hfds : classes c.name with
    | none =>
      simp only [hlookup, hfds, Option.isSome_none, Bool.false_eq_true, if_false] at hrun
      cases hrun
    | some fds =>
      simp only [hlookup, hfds, Option.isSome_none, Bool.false_eq_true, if_false, Outcome.bind_def] at hrun
      obtain ⟨root, hs⟩ := h.stands
      have hintime := hintime hlookup fds hfds
      obtain ⟨s₁, hrun₁, hrun⟩ := Outcome.bind_eq_returns.mp hrun
      obtain ⟨⟨s₂, mts⟩, hrun₂, hrun⟩ := Outcome.bind_eq_returns.mp hrun
      obtain ⟨root₁, θ₁, hs₁, hkeeps, hext⟩ := (applyFundeps_meets hs fuel hintime.solvable).of_returns hrun₁
      obtain ⟨rfl, hs₂, hmarks⟩ :=
        (substituteAll_meets hs₁ (hkeeps.unmarked h.unmarked) fuel c.arguments).of_returns hrun₂
      cases hrun
      exact ⟨θ₁, h.store hfds hintime hext hs₂ hmarks⟩

end Inserted

/-! ### Any number of insertions -/

lemma insertAll_append {fuel : ℕ} (s : MonoTypeUnifier) (cs : List Constraint) (c : Constraint) :
    insertAll off classes fuel s (cs ++ [c]) =
      (insertAll off classes fuel s cs).bind fun p => insert off classes fuel p c := by
  rw [insertAll, Outcome.foldOver_append]
  refine congrArg (Outcome.bind _) (funext fun p => ?_)
  rw [Outcome.foldOver]
  cases insert off classes fuel p c <;> rfl

lemma inserted_nil {root : TyTerm → TyTerm} (h : StandsFor s root θ) (hmarks : ∀ k, ¬ visitedAt s k) :
    Inserted off classes [] θ PrefixTree.empty s θ := by
  have hempty : ∀ mts d, TypeMap.lookup off mts (PrefixTree.empty : CSet) ≠ some d := fun mts d hd => by
    rw [TypeMap.lookup, PrefixTree.lookup_empty] at hd
    cases hd
  refine ⟨⟨root, h⟩, hmarks, ⟨PrefixTree.ordered_empty, fun mts d hd => absurd hd (hempty mts d),
    fun mts _ d _ _ hd => absurd hd (hempty mts d)⟩, ?_, fun d hd => absurd hd List.not_mem_nil, ?_, [], .nil,
    fun σ => ?_⟩
  · exact fun d hd => hd
  · exact fun c hc => absurd hc List.not_mem_nil
  · exact (and_iff_left fun p hp => absurd hp List.not_mem_nil).symm

lemma exists_inserted {fuel : ℕ} {root : TyTerm → TyTerm} (h : StandsFor s root θ) (hmarks : ∀ k, ¬ visitedAt s k)
    (hintime : ∀ done c rest csts₁ s₁ θ₁ fds, cs = done ++ c :: rest →
      insertAll off classes fuel s done = .returns (csts₁, s₁) → TypeMap.lookup off (typeSeqForm c) csts₁ = none →
      Reads s₁ θ₁ → classes c.name = some fds → InTime off classes fds csts₁ θ₁ c)
    (hrun : insertAll off classes fuel s cs = .returns (csts, s')) :
    ∃ θ', Inserted off classes cs θ csts s' θ' := by
  induction cs using List.reverseRecOn generalizing csts s' with
  | nil =>
    cases hrun
    exact ⟨θ, inserted_nil h hmarks⟩
  | append_singleton cs c ih =>
    rw [insertAll_append] at hrun
    obtain ⟨⟨csts₁, s₁⟩, hrun₁, hrun⟩ := Outcome.bind_eq_returns.mp hrun
    obtain ⟨θ₁, h₁⟩ := ih (fun done c' rest csts₂ s₂ θ₂ fds hcs => hintime done c' (rest ++ [c]) csts₂ s₂ θ₂ fds (by
      rw [hcs, List.append_assoc, List.cons_append])) hrun₁
    exact h₁.insert (fun hlookup fds hfds => hintime cs c [] csts₁ s₁ θ₁ fds rfl hrun₁ hlookup h₁.reads hfds) hrun

end

/-- A class whose first parameter determines the second one. -/
def determined (name : Bytes) : Option (List FunDep) := if name = ascii "C" then some [([0], 1)] else none

/-- `C int x` -/
def ofInt (x : Bytes) : Constraint := ⟨ascii "C", [.app (.prim (ascii "int")) [], .var x]⟩

section

variable {off : List Bytes → List TyTerm → ℕ → ℤ} {x y : Bytes}

/-- Only one constraint has been stored. -/
lemma lookup_insert_empty {mts mts' : List TyTerm} {c d : Constraint}
    (h : TypeMap.lookup off mts (TypeMap.insert off mts' c PrefixTree.empty) = some d) : mts = mts' ∧ d = c := by
  have hlookup : TypeMap.lookup off mts (TypeMap.insert off mts' c PrefixTree.empty) =
      if mts = mts' then some c else TypeMap.lookup off mts PrefixTree.empty :=
    PrefixTree.ordered_empty.lookup_insert mts' mts c
  rw [hlookup] at h
  split_ifs at h with hmts
  · exact ⟨hmts, (Option.some.inj h).symm⟩
  · rw [TypeMap.lookup, PrefixTree.lookup_empty] at h
    cases h

lemma insertAll_ofInt {fuel : ℕ} {csts : CSet} {s' : MonoTypeUnifier}
    (hrun : insertAll off determined fuel MonoTypeUnifier.empty [ofInt x] = .returns (csts, s')) :
    csts = TypeMap.insert off (typeSeqForm (ofInt x)) (ofInt x) PrefixTree.empty ∧ Reads s' var := by
  have hsteps : insertAll off determined fuel MonoTypeUnifier.empty [ofInt x] =
      ((substituteAll fuel MonoTypeUnifier.empty (ofInt x).arguments).bind fun p =>
        .returns (TypeMap.insert off (typeSeqForm ⟨ascii "C", p.2⟩) (ofInt x) PrefixTree.empty, p.1)).bind
          .returns := rfl
  rw [hsteps] at hrun
  obtain ⟨⟨csts', s''⟩, hrun, hret⟩ := Outcome.bind_eq_returns.mp hrun
  cases hret
  obtain ⟨⟨s'', mts⟩, hsubst, hrun⟩ := Outcome.bind_eq_returns.mp hrun
  cases hrun
  obtain ⟨rfl, hstands, hmarks⟩ :=
    (substituteAll_meets .empty (fun _ => Bool.false_ne_true) fuel _).of_returns hsubst
  refine ⟨?_, hstands.reads hmarks⟩
  rw [List.map_congr_left fun t _ => subst_id t, List.map_id']
  rfl

lemma found_ofInt : found off [([0], 1)] (TypeMap.insert off (typeSeqForm (ofInt x)) (ofInt x) PrefixTree.empty)
    (ofInt y) = [(var y, var x)] := rfl

lemma inTime_empty : InTime off determined [([0], 1)] PrefixTree.empty var (ofInt x) := by
  have hnone : ∀ mts d, TypeMap.lookup off mts (PrefixTree.empty : CSet) ≠ some d := fun mts d hd => by
    rw [TypeMap.lookup, PrefixTree.lookup_empty] at hd
    cases hd
  refine ⟨⟨var, fun z => subst_var var z, ?_⟩, fun d hd => ?_, ?_, fun mts _ d _ _ hd => absurd hd (hnone mts d),
    fun mts d hd => absurd hd (hnone mts d)⟩
  · exact fun p hp => absurd hp List.not_mem_nil
  · exact absurd hd List.not_mem_nil
  intro d hd e he _ _ _ _ _ _
  obtain rfl := List.mem_singleton.mp (show d ∈ [ofInt x] from hd)
  obtain rfl := List.mem_singleton.mp (show e ∈ [ofInt x] from he)
  exact .inr fun _ _ _ => rfl

/-- The lesser variable has been stored. -/
lemma inTime_ofInt (hxy : x ≤ y) : InTime off determined [([0], 1)]
    (TypeMap.insert off (typeSeqForm (ofInt x)) (ofInt x) PrefixTree.empty) var (ofInt y) := by
  have hsolves : ∀ {σ : Bytes → TyTerm}, Solves σ [(var y, var x)] ↔ σ y = σ x := by
    intro σ
    rw [solves_singleton, subst_var, subst_var]
  have habsorbs : ∀ σ : Bytes → TyTerm, Absorbs σ var := fun σ z => subst_var σ z
  have hknown : ∀ d ∈ [ofInt y, ofInt x], ∀ e ∈ [ofInt y, ofInt x],
      Known var [(var y, var x)] d e 1 := by
    have hvars : ∀ a ∈ [y, x], ∀ b ∈ [y, x], Known var [(var y, var x)] (ofInt a) (ofInt b) 1 := by
      intro a ha b hb σ _ hE
      have heq : σ a = σ b := by
        rcases List.mem_pair.mp ha with rfl | rfl <;> rcases List.mem_pair.mp hb with rfl | rfl
        · rfl
        · exact hsolves.mp hE
        · exact (hsolves.mp hE).symm
        · rfl
      rw [AgreeAt, ofInt, ofInt]
      exact congrArg some ((subst_var σ a).trans (heq.trans (subst_var σ b).symm))
    intro d hd e he
    obtain ⟨a, ha, rfl⟩ := List.mem_map.mp (show d ∈ [y, x].map ofInt from hd)
    obtain ⟨b, hb, rfl⟩ := List.mem_map.mp (show e ∈ [y, x].map ofInt from he)
    exact hvars a ha b hb
  have hone : constraints (TypeMap.insert off (typeSeqForm (ofInt x)) (ofInt x) PrefixTree.empty) = [ofInt x] := rfl
  refine ⟨⟨fun _ => var [], habsorbs _, ?_⟩, ?_, ?_, ?_, ?_⟩
  · rw [found_ofInt]
    exact hsolves.mpr rfl
  · intro d hd _ fd hfd _
    rw [hone] at hd
    rw [found_ofInt, List.mem_singleton.mp hfd]
    exact hknown _ List.mem_cons_self d (List.mem_cons_of_mem _ hd)
  · intro d hd e he _ fds' hfds' fd hfd _
    rw [hone] at hd he
    have hname : d.name = ascii "C" := by
      rcases List.mem_pair.mp hd with rfl | rfl <;> rfl
    rw [hname] at hfds'
    obtain rfl := Option.some.inj hfds'
    rw [found_ofInt, List.mem_singleton.mp hfd]
    exact .inr (hknown d hd e he)
  · intro mts mts' d e hne hd he
    exact absurd ((lookup_insert_empty hd).1.trans (lookup_insert_empty he).1.symm) hne
  · intro mts d hd _ _ z hz
    rw [(lookup_insert_empty hd).1] at hz
    obtain rfl : z = x := List.mem_singleton.mp (show z ∈ [x] from hz)
    refine ⟨rfl, fun u _ hu => ?_⟩
    rw [found_ofInt] at hu
    cases u with
    | app c ts =>
      have happ := hu (fun _ => var []) (habsorbs _) (hsolves.mpr rfl)
      rw [subst_app] at happ
      cases happ
    | var w =>
      refine ⟨w, rfl, ?_⟩
      by_cases hwz : w = z
      · exact hwz ▸ List.le_refl w
      by_cases hwy : w = y
      · exact hwy ▸ hxy
      -- Another variable is not equated.
      have hvar := hu (Function.update (fun _ => var []) w (.app .array [])) (habsorbs _) (hsolves.mpr (by
        rw [Function.update_of_ne (Ne.symm hwy), Function.update_of_ne (Ne.symm hwz)]))
      rw [Function.update_of_ne (Ne.symm hwz), subst_var, Function.update_self] at hvar
      cases hvar

end

end ConstraintSet

end Hobbes.Lang
