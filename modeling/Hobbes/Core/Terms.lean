import Mathlib.Algebra.GroupWithZero.Nat
import Mathlib.Algebra.Order.BigOperators.Group.List
import Mathlib.Algebra.Order.Group.Nat
import Mathlib.Logic.Relation
import Mathlib.Order.WellFounded

/-!
# Terms and equations

First-order terms, over constructors and variables, and what a list of equations between terms forces to be equal. The
equations can be solved by a substitution iff no two constructors that differ are equated, and no term is a part of
itself by way of the equations.
-/

namespace Core

inductive Term (C X : Type) where
  | var (x : X)
  | app (c : C) (ts : List (Term C X))

namespace Term

variable {C X : Type}

@[elab_as_elim, induction_eliminator]
lemma induct {P : Term C X → Prop} (var : ∀ x, P (.var x)) (app : ∀ c ts, (∀ t ∈ ts, P t) → P (.app c ts)) : ∀ t, P t
  | .var x => var x
  | .app c ts => app c ts fun t _ => induct var app t

/-! ### Equality -/

section

variable [DecidableEq C] [DecidableEq X]

mutual

def decEq : (s t : Term C X) → Decidable (s = t)
  | var x, var y => if h : x = y then isTrue (congrArg var h) else isFalse fun heq => h (Term.var.inj heq)
  | app c ss, app d ts =>
    if h : c = d then
      match decEqs ss ts with
      | isTrue hs => isTrue (congrArg₂ app h hs)
      | isFalse hs => isFalse fun heq => hs (Term.app.inj heq).2
    else isFalse fun heq => h (Term.app.inj heq).1
  | var _, app _ _ => isFalse nofun
  | app _ _, var _ => isFalse nofun

def decEqs : (ss ts : List (Term C X)) → Decidable (ss = ts)
  | [], [] => isTrue rfl
  | s :: ss, t :: ts =>
    match decEq s t, decEqs ss ts with
    | isTrue h, isTrue hs => isTrue (congrArg₂ List.cons h hs)
    | isFalse h, _ => isFalse fun heq => h (List.cons.inj heq).1
    | _, isFalse hs => isFalse fun heq => hs (List.cons.inj heq).2
  | [], _ :: _ => isFalse nofun
  | _ :: _, [] => isFalse nofun

end

instance : DecidableEq (Term C X) := decEq

end

/-! ### Substitution -/

def subst (σ : X → Term C X) : Term C X → Term C X
  | var x => σ x
  | app c ts => app c (ts.map (subst σ))

@[simp] lemma subst_var (σ : X → Term C X) (x : X) : (var x).subst σ = σ x := by rw [subst]

@[simp] lemma subst_app (σ : X → Term C X) (c : C) (ts : List (Term C X)) :
    (app c ts).subst σ = app c (ts.map (subst σ)) := by rw [subst]

def size : Term C X → ℕ
  | var _ => 1
  | app _ ts => 1 + (ts.map size).sum

lemma size_lt {c : C} {t : Term C X} {ts : List (Term C X)} (h : t ∈ ts) : t.size < (app c ts).size := by
  rw [size]
  exact Nat.lt_one_add_iff.mpr (List.le_sum_of_mem (List.mem_map_of_mem h))

lemma size_app_eq {c d : C} {ss ts : List (Term C X)} (hlen : ss.length = ts.length)
    (h : ∀ p ∈ ss.zip ts, p.1.size = p.2.size) : (app c ss).size = (app d ts).size := by
  have hsizes : ss.map size = ts.map size := by
    induction ss generalizing ts with
    | nil => rw [List.length_eq_zero_iff.mp hlen.symm]
    | cons s ss ih =>
      cases ts with
      | nil => cases hlen
      | cons t ts =>
        rw [List.zip_cons_cons, List.forall_mem_cons] at h
        exact congrArg₂ List.cons h.1 (ih (Nat.succ.inj hlen) h.2)
  rw [size, size, hsizes]

/-! ### Substitutions one after the other -/

section

variable {θ θ' σ ρ : X → Term C X} {t u : Term C X}

@[simp] lemma subst_id (t : Term C X) : t.subst var = t := by
  induction t with
  | var x => exact subst_var _ x
  | app c ts ih => rw [subst_app, List.map_congr_left ih, List.map_id']

lemma subst_subst (θ ρ : X → Term C X) (t : Term C X) : (t.subst θ).subst ρ = t.subst fun x => (θ x).subst ρ := by
  induction t with
  | var x => rw [subst_var, subst_var]
  | app c ts ih =>
    rw [subst_app, subst_app, subst_app, List.map_map]
    exact congrArg (app c) (List.map_congr_left ih)

/-- `θ` does not matter before `σ`. -/
def Absorbs (σ θ : X → Term C X) : Prop := ∀ x, (θ x).subst σ = σ x

lemma Absorbs.subst (h : Absorbs σ θ) (t : Term C X) : (t.subst θ).subst σ = t.subst σ := by
  rw [subst_subst]
  exact congrArg (Term.subst · t) (funext h)

lemma Absorbs.trans (h : Absorbs σ θ') (h' : Absorbs θ' θ) : Absorbs σ θ := fun x => by
  rw [← h.subst, h' x, h x]

/-- A variable that has not been bound is bound. -/
def bindVar [DecidableEq X] (θ : X → Term C X) (y : X) (u : Term C X) : X → Term C X :=
  fun x => (θ x).subst (Function.update var y u)

section

variable [DecidableEq X] {y : X}

lemma subst_bindVar (θ : X → Term C X) (y : X) (u t : Term C X) :
    t.subst (bindVar θ y u) = (t.subst θ).subst (Function.update var y u) := (subst_subst _ _ t).symm

lemma bindVar_self (hy : θ y = var y) : bindVar θ y u y = u := by
  rw [bindVar, hy, subst_var, Function.update_self]

lemma absorbs_bindVar (h : Absorbs θ θ) : Absorbs (bindVar θ y u) θ := fun x => by
  rw [subst_bindVar, h x]
  rfl

lemma bindVar_idempotent (h : Absorbs θ θ) (hy : θ y = var y) (hu : u.subst (bindVar θ y u) = u) :
    Absorbs (bindVar θ y u) (bindVar θ y u) := fun x => by
  have hupdate : (fun z => (Function.update var y u z).subst (bindVar θ y u)) = bindVar θ y u := funext fun z => by
    rcases eq_or_ne z y with rfl | hne
    · rw [Function.update_self, hu, bindVar_self hy]
    · rw [Function.update_of_ne hne, subst_var]
  rw [bindVar, subst_subst, hupdate]
  exact absorbs_bindVar h x

/-- What solves the new equation absorbs the binding. -/
lemma Absorbs.bindVar (h : Absorbs σ θ) (hy : u.subst σ = σ y) : Absorbs σ (Term.bindVar θ y u) := fun x => by
  have hupdate : (fun z => (Function.update var y u z).subst σ) = σ := funext fun z => by
    rcases eq_or_ne z y with rfl | hne
    · rw [Function.update_self, hy]
    · rw [Function.update_of_ne hne, subst_var]
  rw [Term.bindVar, subst_subst, hupdate, h x]

end

/-- All constructors of a term are among `A`. -/
inductive Within (A : Set C) : Term C X → Prop
  | var (x : X) : Within A (var x)
  | app {c : C} {ts : List (Term C X)} (hc : c ∈ A) (hts : ∀ t ∈ ts, Within A t) : Within A (app c ts)

lemma Within.subst {A : Set C} (h : Within A t) (hρ : ∀ x, Within A (ρ x)) : Within A (t.subst ρ) := by
  induction h with
  | var x =>
    rw [subst_var]
    exact hρ x
  | @app c ts hc _ ih =>
    rw [subst_app]
    refine .app hc fun u hu => ?_
    obtain ⟨t, ht, rfl⟩ := List.mem_map.mp hu
    exact ih t ht

end

/-! ### Equations -/

abbrev Equations (C X : Type) := List (Term C X × Term C X)

/-- What equations force to be equal, as far as terms with different constructors can be equal. -/
inductive Equated (E : Equations C X) : Term C X → Term C X → Prop
  | pair {s t : Term C X} (h : (s, t) ∈ E) : Equated E s t
  | refl (t : Term C X) : Equated E t t
  | symm {s t : Term C X} (h : Equated E s t) : Equated E t s
  | trans {s t u : Term C X} (h : Equated E s t) (h' : Equated E t u) : Equated E s u
  | arg {c d : C} {ss ts : List (Term C X)} {i : ℕ} {s t : Term C X} (h : Equated E (app c ss) (app d ts))
      (hs : ss[i]? = some s) (ht : ts[i]? = some t) : Equated E s t

/-- No two constructors that `form` tells apart are equated. -/
def Joinable {F : Type} (form : C → F) (E : Equations C X) : Prop :=
  ∀ c d ss ts, Equated E (app c ss) (app d ts) → form c = form d ∧ ss.length = ts.length

/-- No two constructors are equated. -/
def Same (E : Equations C X) : Prop :=
  ∀ c d ss ts, Equated E (app c ss) (app d ts) → c = d ∧ ss.length = ts.length

/-- `u` is a part of a term that `t` is equated with. -/
def Below (E : Equations C X) (u t : Term C X) : Prop := ∃ c ts, Equated E t (app c ts) ∧ u ∈ ts

/-- The equations do not force a term to be infinite. -/
def IsFinite (E : Equations C X) (t : Term C X) : Prop := Acc (Below E) t

def Solves (σ : X → Term C X) (E : Equations C X) : Prop := ∀ p ∈ E, p.1.subst σ = p.2.subst σ

section

variable {F : Type} {form : C → F} {E : Equations C X} {s t : Term C X}

lemma Equated.below_iff (h : Equated E s t) {u : Term C X} : Below E u s ↔ Below E u t :=
  ⟨fun ⟨c, ts, hs, hu⟩ => ⟨c, ts, h.symm.trans hs, hu⟩, fun ⟨c, ts, ht, hu⟩ => ⟨c, ts, h.trans ht, hu⟩⟩

lemma Equated.isFinite (h : Equated E s t) (hs : IsFinite E s) : IsFinite E t :=
  Acc.intro t fun _ hu => hs.inv (h.below_iff.mpr hu)

lemma IsFinite.arg {c : C} {ts : List (Term C X)} (h : IsFinite E (app c ts)) (ht : t ∈ ts) : IsFinite E t :=
  h.inv ⟨c, ts, .refl _, ht⟩

lemma equated_nil (h : Equated [] s t) : s = t := by
  induction h with
  | pair h => cases h
  | refl => rfl
  | symm _ ih => exact ih.symm
  | trans _ _ ih ih' => exact ih.trans ih'
  | arg _ hs ht ih =>
    obtain ⟨-, rfl⟩ := Term.app.inj ih
    exact Option.some.inj (hs.symm.trans ht)

lemma Equated.of_mem_zip {c d : C} {ss ts : List (Term C X)} (h : Equated E (app c ss) (app d ts))
    {a b : Term C X} (hmem : (a, b) ∈ ss.zip ts) : Equated E a b := by
  obtain ⟨i, hi⟩ := List.mem_iff_getElem?.mp hmem
  obtain ⟨ha, hb⟩ := List.getElem?_zip_eq_some.mp hi
  exact h.arg ha hb

lemma Equated.mono {E' : Equations C X} (hsub : E ⊆ E') (h : Equated E s t) : Equated E' s t := by
  induction h with
  | pair h => exact .pair (hsub h)
  | refl t => exact .refl t
  | symm _ ih => exact ih.symm
  | trans _ _ ih ih' => exact ih.trans ih'
  | arg _ hs ht ih => exact ih.arg hs ht

/-- What equations force to be equal is, after a solution of some of them, forced by the others. -/
lemma Equated.subst {E' : Equations C X} {θ : X → Term C X} (hθ : ∀ p ∈ E, p.1.subst θ = p.2.subst θ)
    (hE' : ∀ p ∈ E', p.1.subst θ = p.1 ∧ p.2.subst θ = p.2) (h : Equated (E ++ E') s t) :
    Equated E' (s.subst θ) (t.subst θ) := by
  induction h with
  | @pair s t h =>
    rcases List.mem_append.mp h with h | h
    · rw [hθ _ h]
      exact .refl _
    · rw [(hE' _ h).1, (hE' _ h).2]
      exact .pair h
  | refl t => exact .refl _
  | symm _ ih => exact ih.symm
  | trans _ _ ih ih' => exact ih.trans ih'
  | arg _ hs ht ih =>
    rw [subst_app, subst_app] at ih
    exact ih.arg (by rw [List.getElem?_map, hs]; rfl) (by rw [List.getElem?_map, ht]; rfl)

/-- So no infinite terms come from the solution. -/
lemma IsFinite.of_subst {E' : Equations C X} {θ : X → Term C X} (hθ : ∀ p ∈ E, p.1.subst θ = p.2.subst θ)
    (hE' : ∀ p ∈ E', p.1.subst θ = p.1 ∧ p.2.subst θ = p.2) (h : IsFinite E' (t.subst θ)) : IsFinite (E ++ E') t := by
  refine Subrelation.accessible ?_ (InvImage.accessible (fun t : Term C X => t.subst θ) h)
  rintro u t ⟨c, ts, heq, hu⟩
  have hsubst := heq.subst hθ hE'
  rw [subst_app] at hsubst
  exact ⟨c, _, hsubst, List.mem_map_of_mem hu⟩

/-- Variables may be replaced in all equations. -/
lemma Equated.map_subst (θ : X → Term C X) (h : Equated E s t) :
    Equated (E.map fun p => (p.1.subst θ, p.2.subst θ)) (s.subst θ) (t.subst θ) := by
  induction h with
  | pair h => exact .pair (List.mem_map_of_mem h)
  | refl t => exact .refl _
  | symm _ ih => exact ih.symm
  | trans _ _ ih ih' => exact ih.trans ih'
  | arg _ hs ht ih =>
    rw [subst_app, subst_app] at ih
    exact ih.arg (by rw [List.getElem?_map, hs]; rfl) (by rw [List.getElem?_map, ht]; rfl)

lemma Joinable.of_append {E' : Equations C X} (h : Joinable form (E ++ E')) : Joinable form E' :=
  fun c d ss ts heq => h c d ss ts (heq.mono (List.subset_append_right E E'))

lemma Joinable.of_map_subst {θ : X → Term C X} (h : Joinable form (E.map fun p => (p.1.subst θ, p.2.subst θ))) :
    Joinable form E := by
  intro c d ss ts heq
  have hsubst := heq.map_subst θ
  rw [subst_app, subst_app] at hsubst
  simpa using h c d _ _ hsubst

/-- A term is finite if its parts are, where no constructors clash. -/
lemma Joinable.isFinite_app (h : Joinable form E) {c : C} {ts : List (Term C X)} (hts : ∀ t ∈ ts, IsFinite E t) :
    IsFinite E (app c ts) := by
  refine Acc.intro _ ?_
  rintro u ⟨d, us, heq, hu⟩
  obtain ⟨i, hi⟩ := List.mem_iff_getElem?.mp hu
  have hlt : i < ts.length := by
    rw [(h c d ts us heq).2]
    exact (List.getElem?_eq_some_iff.mp hi).1
  have ht := List.getElem?_eq_getElem hlt
  exact (heq.arg ht hi).isFinite (hts _ (List.getElem_mem hlt))

lemma Same.joinable (h : Same E) : Joinable form E := fun c d ss ts heq =>
  ⟨congrArg form (h c d ss ts heq).1, (h c d ss ts heq).2⟩

/-! ### Solutions -/

variable {σ : X → Term C X}

lemma Solves.equated (h : Solves σ E) (heq : Equated E s t) : s.subst σ = t.subst σ := by
  induction heq with
  | pair hmem => exact h _ hmem
  | refl => rfl
  | symm _ ih => exact ih.symm
  | trans _ _ ih ih' => exact ih.trans ih'
  | @arg _ _ _ _ i _ _ _ hs ht ih =>
    rw [subst_app, subst_app] at ih
    have hargs := congrArg (·[i]?) (Term.app.inj ih).2
    simp only [List.getElem?_map, hs, ht, Option.map_some] at hargs
    exact Option.some.inj hargs

lemma Solves.same (h : Solves σ E) : Same E := by
  intro c d ss ts heq
  have hsubst := h.equated heq
  rw [subst_app, subst_app] at hsubst
  obtain ⟨hc, hargs⟩ := Term.app.inj hsubst
  have hlen := congrArg List.length hargs
  rw [List.length_map, List.length_map] at hlen
  exact ⟨hc, hlen⟩

/-- A solution makes parts smaller. -/
lemma Solves.isFinite (h : Solves σ E) (t : Term C X) : IsFinite E t := by
  refine Subrelation.accessible ?_ ((measure fun t : Term C X => (t.subst σ).size).wf.apply t)
  rintro u t ⟨c, ts, heq, hu⟩
  show (u.subst σ).size < (t.subst σ).size
  rw [h.equated heq, subst_app]
  exact size_lt (List.mem_map_of_mem hu)

/-- The constructor and the arguments of one of the terms that `t` is equated with, if one has a constructor. -/
noncomputable def headOf (E : Equations C X) (t : Term C X) : Option (C × List (Term C X)) :=
  open Classical in if h : ∃ p : C × List (Term C X), Equated E t (app p.1 p.2) then some h.choose else none

lemma equated_headOf {p : C × List (Term C X)} (h : headOf E t = some p) : Equated E t (app p.1 p.2) := by
  unfold headOf at h
  split_ifs at h with hex
  cases h
  exact hex.choose_spec

lemma exists_headOf {c : C} {ts : List (Term C X)} (h : Equated E t (app c ts)) : ∃ p, headOf E t = some p := by
  have hex : ∃ p : C × List (Term C X), Equated E t (app p.1 p.2) := ⟨(c, ts), h⟩
  exact ⟨hex.choose, by rw [headOf, dif_pos hex]⟩

/-- Which one it is only depends on what `t` is equated with. -/
lemma Equated.headOf_eq (h : Equated E s t) : headOf E s = headOf E t := by
  have hiff : (fun p : C × List (Term C X) => Equated E s (app p.1 p.2)) =
      fun p => Equated E t (app p.1 p.2) := funext fun _ => propext ⟨h.symm.trans, h.trans⟩
  by_cases hs : ∃ p : C × List (Term C X), Equated E s (app p.1 p.2)
  · have ht : ∃ p : C × List (Term C X), Equated E t (app p.1 p.2) := hs.imp fun _ => h.symm.trans
    rw [headOf, headOf, dif_pos hs, dif_pos ht]
    simp only [hiff]
  · have ht : ¬ ∃ p : C × List (Term C X), Equated E t (app p.1 p.2) := fun ht => hs (ht.imp fun _ => h.trans)
    rw [headOf, headOf, dif_neg hs, dif_neg ht]

/-- A variable that `t` is equated with, if there is one. -/
noncomputable def varOf (E : Equations C X) (t : Term C X) : Term C X :=
  open Classical in if h : ∃ x, Equated E t (var x) then var h.choose else t

lemma equated_varOf {x : X} (hx : Equated E t (var x)) : ∃ y, varOf E t = var y ∧ Equated E t (var y) := by
  have hex : ∃ x, Equated E t (var x) := ⟨x, hx⟩
  exact ⟨hex.choose, dif_pos hex, hex.choose_spec⟩

lemma Equated.varOf_eq (h : Equated E s t) {x : X} (hx : Equated E s (var x)) : varOf E s = varOf E t := by
  have hiff : (fun x => Equated E s (var x)) = fun x => Equated E t (var x) :=
    funext fun _ => propext ⟨h.symm.trans, h.trans⟩
  have hs : ∃ x, Equated E s (var x) := ⟨x, hx⟩
  have ht : ∃ x, Equated E t (var x) := ⟨x, h.symm.trans hx⟩
  rw [varOf, varOf, dif_pos hs, dif_pos ht]
  simp only [hiff]

/-- The term that a term comes to, one level after the other. -/
noncomputable def resolve (hfin : ∀ t, IsFinite E t) : Term C X → Term C X :=
  WellFounded.fix ⟨hfin⟩ fun t rec =>
    match h : headOf E t with
    | none => varOf E t
    | some p => app p.1 (p.2.attach.map fun u => rec u.1 ⟨p.1, p.2, equated_headOf h, u.2⟩)

lemma resolve_eq (hfin : ∀ t, IsFinite E t) (t : Term C X) : resolve hfin t =
    match headOf E t with
    | none => varOf E t
    | some p => app p.1 (p.2.map (resolve hfin)) := by
  rw [resolve, WellFounded.fix_eq]
  split
  · rename_i h
    split
    · rfl
    · rename_i h'
      cases h.symm.trans h'
  · rename_i p h
    split
    · rename_i h'
      cases h.symm.trans h'
    · rename_i q h'
      cases h.symm.trans h'
      rw [List.map_attach_eq_pmap, List.pmap_eq_map]

lemma Equated.resolve_eq (hfin : ∀ t, IsFinite E t) (h : Equated E s t) : resolve hfin s = resolve hfin t := by
  rw [Term.resolve_eq, Term.resolve_eq, h.headOf_eq]
  cases ht : headOf E t with
  | some p => rfl
  | none =>
    have hvar : ∀ u, Equated E t u → ∃ x, u = var x := by
      intro u hu
      cases u with
      | var x => exact ⟨x, rfl⟩
      | app c ts =>
        obtain ⟨p, hp⟩ := exists_headOf hu
        rw [hp] at ht
        cases ht
    obtain ⟨x, hx⟩ := hvar t (.refl t)
    exact h.varOf_eq (hx ▸ h)

/-- What terms come to is what the variables in them come to. -/
lemma subst_resolve (hsame : Same E) (hfin : ∀ t, IsFinite E t) (t : Term C X) :
    t.subst (fun x => resolve hfin (var x)) = resolve hfin t := by
  induction t with
  | var x => exact subst_var _ x
  | app c ts ih =>
    obtain ⟨⟨d, us⟩, hp⟩ := exists_headOf (.refl (app c ts))
    have heq : Equated E (app c ts) (app d us) := equated_headOf hp
    obtain ⟨rfl, hlen⟩ := hsame c d ts us heq
    rw [subst_app, Term.resolve_eq, hp, List.map_congr_left ih]
    refine congrArg (app c) (List.ext_getElem? fun i => ?_)
    rw [List.getElem?_map, List.getElem?_map]
    by_cases hi : i < ts.length
    · have hi' : i < us.length := hlen ▸ hi
      have ht := List.getElem?_eq_getElem hi
      have hu := List.getElem?_eq_getElem hi'
      rw [ht, hu]
      exact congrArg some ((heq.arg ht hu).resolve_eq hfin)
    · rw [List.getElem?_eq_none (not_lt.mp hi), List.getElem?_eq_none (hlen ▸ not_lt.mp hi)]

/-- All solutions are what becomes of this one. -/
structure MostGeneral (θ : X → Term C X) (E : Equations C X) : Prop where
  solves : Solves θ E
  absorbs : ∀ σ, Solves σ E → Absorbs σ θ

namespace MostGeneral

variable {θ : X → Term C X}

lemma idempotent (h : MostGeneral θ E) : Absorbs θ θ := h.absorbs θ h.solves

lemma solves_iff (h : MostGeneral θ E) : Solves σ E ↔ Absorbs σ θ := by
  refine ⟨h.absorbs σ, fun hσ p hp => ?_⟩
  rw [← hσ.subst, h.solves p hp, hσ.subst]

/-- Equations with the same solutions have the same most general ones. -/
lemma congr (h : MostGeneral θ E) {E' : Equations C X} (hiff : ∀ σ, Solves σ E' ↔ Solves σ E) : MostGeneral θ E' :=
  ⟨(hiff θ).mpr h.solves, fun σ hσ => h.absorbs σ ((hiff σ).mp hσ)⟩

lemma nil : MostGeneral (C := C) var ([] : Equations C X) := ⟨nofun, fun σ _ x => subst_var σ x⟩

end MostGeneral

lemma solves_append {E' : Equations C X} : Solves σ (E ++ E') ↔ Solves σ E ∧ Solves σ E' := List.forall_mem_append

lemma solves_singleton {p : Term C X × Term C X} : Solves σ [p] ↔ p.1.subst σ = p.2.subst σ :=
  List.forall_mem_singleton

lemma solves_zip {ss ts : List (Term C X)} (h : ss.length = ts.length) :
    Solves σ (ss.zip ts) ↔ ss.map (subst σ) = ts.map (subst σ) := by
  induction ss generalizing ts with
  | nil =>
    obtain rfl := List.eq_nil_of_length_eq_zero h.symm
    exact iff_of_true nofun rfl
  | cons a ss ih =>
    cases ts with
    | nil => cases h
    | cons b ts =>
      rw [List.zip_cons_cons, List.map_cons, List.map_cons, List.cons.injEq, ← ih (Nat.succ.inj h)]
      exact List.forall_mem_cons

/-- Equations have a solution iff no different constructors are equated and all terms are finite. -/
lemma exists_solves_iff : (∃ σ, Solves σ E) ↔ Same E ∧ ∀ t, IsFinite E t := by
  refine ⟨fun ⟨σ, hσ⟩ => ⟨hσ.same, hσ.isFinite⟩, fun ⟨hsame, hfin⟩ => ?_⟩
  refine ⟨fun x => resolve hfin (var x), fun p hp => ?_⟩
  rw [subst_resolve hsame, subst_resolve hsame]
  exact (Equated.pair hp).resolve_eq hfin

/-- Equations between terms of equal sizes leave all terms finite. -/
lemma isFinite_of_size (h : ∀ s t, Equated E s t → s.size = t.size) (t : Term C X) : IsFinite E t := by
  refine Subrelation.accessible ?_ ((measure (size (C := C) (X := X))).wf.apply t)
  rintro u t ⟨c, ts, heq, hu⟩
  show u.size < t.size
  rw [h _ _ heq]
  exact size_lt hu

end

end Term

end Core
