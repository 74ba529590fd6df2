import Hobbes.Lang.UnifierCopies

/-!
# What is solved in any state

Types may be unified after others have been substituted. As long as the next equation has a solution together with what
has been solved so far, unification solves it in the most general way, and the least of the variables that come to be
equal stands for the others.
-/

namespace Hobbes.Lang

open Core Term EquivalenceMapping MonoTypeUnifier

/-! ### Variables and equations -/

lemma mem_typesVars {x : Bytes} {ts : List TyTerm} : x ∈ typesVars ts ↔ ∃ t ∈ ts, x ∈ typeVars t := by
  induction ts with
  | nil => simp [typesVars]
  | cons t ts ih =>
    rw [typesVars, List.exists_mem_cons_iff, ← ih]
    exact List.mem_union_iff

/-- What a variable stands for is smaller than a type that the variable is a part of. -/
lemma size_lt_of_mem {σ : Bytes → TyTerm} {x : Bytes} {t : TyTerm} (hx : x ∈ typeVars t) (hne : t ≠ var x) :
    (σ x).size < (t.subst σ).size := by
  induction t using Term.induct with
  | var y =>
    rw [typeVars, List.mem_singleton] at hx
    exact absurd (congrArg var hx.symm) hne
  | app c ts ih =>
    rw [typeVars, mem_typesVars] at hx
    obtain ⟨t, ht, hx⟩ := hx
    have hlt : (t.subst σ).size < ((app c ts : TyTerm).subst σ).size := by
      rw [subst_app]
      exact size_lt (List.mem_map_of_mem ht)
    by_cases hvar : t = var x
    · rwa [hvar, subst_var] at hlt
    · exact (ih t ht hx hvar).trans hlt

/-- Substitutions that make the same of a type are the same on its variables. -/
lemma eq_of_subst_eq {σ τ : Bytes → TyTerm} {t : TyTerm} (h : t.subst σ = t.subst τ) : ∀ x ∈ typeVars t, σ x = τ x := by
  induction t using Term.induct with
  | var y =>
    intro x hx
    rw [typeVars, List.mem_singleton] at hx
    rwa [hx, ← subst_var σ, ← subst_var τ]
  | app c ts ih =>
    intro x hx
    rw [typeVars, mem_typesVars] at hx
    obtain ⟨t, ht, hx⟩ := hx
    rw [subst_app, subst_app, Term.app.injEq] at h
    exact ih t ht (List.map_eq_map_iff.mp h.2 t ht) x hx

/-- The variables of a type that a substitution leaves as it is are left as they are. -/
lemma eq_var_of_subst_eq {θ : Bytes → TyTerm} {t : TyTerm} (h : t.subst θ = t) : ∀ x ∈ typeVars t, θ x = var x :=
  eq_of_subst_eq (h.trans (subst_id t).symm)

lemma solves_swap {σ : Bytes → TyTerm} {l r : TyTerm} : Solves σ [(l, r)] ↔ Solves σ [(r, l)] := by
  rw [solves_singleton, solves_singleton, eq_comm]

/-! ### Extensions of a substitution -/

/-- `θ'` comes from `θ` by solving the equations, and binds no more than is needed for it. Variables that are bound stay
so, and of variables that have been equated the least is left. -/
structure Extends (θ : Bytes → TyTerm) (E : Equations TyCtor Bytes) (θ' : Bytes → TyTerm) : Prop where
  idem : Absorbs θ' θ'
  absorbs_iff : ∀ σ, Absorbs σ θ' ↔ Absorbs σ θ ∧ Solves σ E
  bound : ∀ y, θ' y = var y → θ y = var y
  least : ∀ x y, θ x = var x → θ' x = var y → y ≤ x

namespace Extends

variable {θ θ' θ'' σ : Bytes → TyTerm} {E E' : Equations TyCtor Bytes} {x : Bytes} {t l r : TyTerm}

lemma refl (h : Absorbs θ θ) : Extends θ [] θ where
  idem := h
  absorbs_iff _ := ⟨fun hσ => ⟨hσ, nofun⟩, And.left⟩
  bound _ := id
  least x y hx hy := by
    rw [hx, var.injEq] at hy
    exact hy ▸ List.le_refl x

lemma absorbs (h : Extends θ E θ') : Absorbs θ' θ := ((h.absorbs_iff θ').mp h.idem).1

lemma solves (h : Extends θ E θ') : Solves θ' E := ((h.absorbs_iff θ').mp h.idem).2

lemma trans (h : Extends θ E θ') (h' : Extends θ' E' θ'') : Extends θ (E ++ E') θ'' where
  idem := h'.idem
  absorbs_iff σ := by rw [h'.absorbs_iff, h.absorbs_iff, solves_append, and_assoc]
  bound y hy := h.bound y (h'.bound y hy)
  least x y hx hy := by
    -- `x` comes to a variable that has been left after the first equations.
    have hxy : (θ' x).subst θ'' = var y := (h'.absorbs x).trans hy
    cases hw : θ' x with
    | app c ts =>
      rw [hw, subst_app] at hxy
      cases hxy
    | var w =>
      rw [hw, subst_var] at hxy
      have hidem := h.idem x
      rw [hw, subst_var] at hidem
      exact List.le_trans (h'.least w y hidem hxy) (h.least x w hx hw)

lemma congr (h : Extends θ E θ') (hE : ∀ σ, Absorbs σ θ → (Solves σ E ↔ Solves σ E')) : Extends θ E' θ' :=
  ⟨h.idem, fun σ => (h.absorbs_iff σ).trans (and_congr_right (hE σ)), h.bound, h.least⟩


/-- A variable is bound. -/
lemma of_var (h : Absorbs θ θ) (hl : l.subst θ = var x) (hne : r.subst θ ≠ var x)
    (hsolution : ∃ σ, Absorbs σ θ ∧ l.subst σ = r.subst σ) (hleast : ∀ y, r.subst θ = var y → y ≤ x) :
    Extends θ [(l, r)] (bindVar θ x (r.subst θ)) := by
  have hx : θ x = var x := by
    have hfix := h.subst l
    rwa [hl, subst_var] at hfix
  have hkeeps : (r.subst θ).subst (bindVar θ x (r.subst θ)) = r.subst θ := by
    obtain ⟨σ, hσ, hlr⟩ := hsolution
    rw [← hσ.subst, hl, subst_var, ← hσ.subst r] at hlr
    rw [subst_bindVar, h.subst]
    -- The variable is not a part of what it is bound to.
    have hnot : ∀ y ∈ typeVars (r.subst θ), y ≠ x := by
      rintro y hy rfl
      exact absurd (hlr ▸ size_lt_of_mem hy hne) (Nat.lt_irrefl _)
    exact (subst_congr fun y hy => Function.update_of_ne (hnot y hy) (r.subst θ) var).trans (subst_id _)
  refine ⟨bindVar_idempotent h hx hkeeps, fun σ => ⟨fun hσ => ?_, fun ⟨hσ, hlr⟩ => ?_⟩, fun y hy => ?_,
    fun y z hy hz => ?_⟩
  · have hθ : Absorbs σ θ := hσ.trans (absorbs_bindVar h)
    refine ⟨hθ, solves_singleton.mpr ?_⟩
    have hbound := hσ x
    rw [bindVar_self hx] at hbound
    rw [← hθ.subst, hl, subst_var, ← hbound, hθ.subst]
  · rw [solves_singleton] at hlr
    refine hσ.bindVar ?_
    rw [hσ.subst, ← hlr, ← hσ.subst l, hl, subst_var]
  · rw [bindVar] at hy
    cases hw : θ y with
    | app c ts =>
      rw [hw, subst_app] at hy
      cases hy
    | var w =>
      rw [hw, subst_var] at hy
      by_cases hwx : w = x
      · subst hwx
        rw [Function.update_self] at hy
        have hfix := h.subst r
        rw [hy, subst_var, hw] at hfix
        exact hfix
      · rw [Function.update_of_ne hwx] at hy
        exact hy
  · rw [bindVar, hy, subst_var] at hz
    by_cases hyx : y = x
    · subst hyx
      rw [Function.update_self] at hz
      exact hleast z hz
    · rw [Function.update_of_ne hyx, var.injEq] at hz
      exact hz ▸ List.le_refl y

/-- Types that are equal already are no equation to solve. -/
lemma of_eq (h : Absorbs θ θ) (hlr : l.subst θ = r.subst θ) : Extends θ [(l, r)] θ := by
  refine (refl h).congr fun σ hσ => iff_of_true nofun (solves_singleton.mpr ?_)
  rw [← hσ.subst l, hlr, hσ.subst]

end Extends

/-! ### Unification -/

namespace StandsFor

variable {s : MonoTypeUnifier} {root : TyTerm → TyTerm} {θ θ' : Bytes → TyTerm} {l r : TyTerm}

/-- What unification does after the types' nodes have been found. -/
lemma unify_cases (h : StandsFor s root θ) (l r : TyTerm) : ∃ t, StandsFor t root θ ∧ Keeps s t ∧
    root l ∈ t.m.nodes ∧ root r ∈ t.m.nodes ∧
    ∀ fuel, s.unify (fuel + 1) l r =
      if typeAt t (root l) = typeAt t (root r) then .returns t
      else
        match typeAt t (root l), typeAt t (root r) with
        | .app c ss, .app d ts =>
          if ss.length ≠ ts.length ∨ c.cname ≠ d.cname then .throws
          else (Outcome.foldOver (fun s p => MonoTypeUnifier.unify fuel s p.1 p.2) t (ss.zip ts)).bind fun s =>
            s.joinNodeTypes (root l) (root r)
        | _, _ => joinNodeTypes { t with bcount := t.bcount + 1 } (root l) (root r) := by
  obtain ⟨ml, hfindl, hl, hmeml, hkeepsl⟩ := h.findNode l
  obtain ⟨mr, hfindr, hr, hmemr, hkeepsr⟩ := hl.findNode r
  have hmeml' : root l ∈ mr.nodes := hkeepsr.mem _ hmeml
  refine ⟨{ s with m := mr }, hr, hkeepsl.trans hkeepsr, hmeml', hmemr, fun fuel => ?_⟩
  simp only [MonoTypeUnifier.unify, Outcome.bind_def, Outcome.pure_def, hfindl, hfindr, Outcome.ofOption_some,
    Outcome.returns_bind, nodeType_eq (s := { s with m := mr }) hmeml',
    nodeType_eq (s := { s with m := mr }) hmemr]
  all_goals rfl

/-- `s'` comes from `s` by solving the equations. -/
def SolvedFrom (s : MonoTypeUnifier) (θ : Bytes → TyTerm) (E : Equations TyCtor Bytes) (s' : MonoTypeUnifier) : Prop :=
  ∃ root' θ', StandsFor s' root' θ' ∧ Keeps s s' ∧ Extends θ E θ'

/-- What solves equations in any state solves them all one after the other, if they have a solution in common. -/
lemma foldOver_solves (h : StandsFor s root θ) {α : Type} {f : MonoTypeUnifier → α → Outcome MonoTypeUnifier} {Q : Prop}
    {as : List α} {eqns : α → Equations TyCtor Bytes} (hsolution : ∃ σ, Absorbs σ θ ∧ Solves σ (as.flatMap eqns))
    (hf : ∀ a ∈ as, ∀ s root θ, StandsFor s root θ → (∃ σ, Absorbs σ θ ∧ Solves σ (eqns a)) →
      (f s a).Meets (SolvedFrom s θ (eqns a)) Q) :
    (Outcome.foldOver f s as).Meets (SolvedFrom s θ (as.flatMap eqns)) Q := by
  obtain ⟨σ, hσ, hsolves⟩ := hsolution
  have hsolves : ∀ a ∈ as, Solves σ (eqns a) := fun a ha p hp => hsolves p (List.mem_flatMap.mpr ⟨a, ha, hp⟩)
  have hmeets : (Outcome.foldOver f s as).Meets
      (fun s' => (∀ a ∈ as, a ∈ as) ∧ SolvedFrom s θ (as.flatMap eqns) s') Q :=
    Outcome.Meets.foldOver (fun done s' => (∀ a ∈ done, a ∈ as) ∧ SolvedFrom s θ (done.flatMap eqns) s')
      ⟨nofun, root, θ, h, .refl s, .refl h.idem⟩ ?_
  · exact hmeets.mono (fun _ => And.right) id
  rintro done a s₁ ha ⟨hdone, root₁, θ₁, h₁, hkeeps₁, hext₁⟩
  have hσ₁ : Absorbs σ θ₁ := (hext₁.absorbs_iff σ).mpr ⟨hσ, fun p hp => ?_⟩
  · refine (hf a ha s₁ root₁ θ₁ h₁ ⟨σ, hσ₁, hsolves a ha⟩).mono ?_ id
    rintro s₂ ⟨root₂, θ₂, h₂, hkeeps₂, hext₂⟩
    refine ⟨List.forall_mem_append.mpr ⟨hdone, List.forall_mem_singleton.mpr ha⟩, root₂, θ₂, h₂,
      hkeeps₁.trans hkeeps₂, ?_⟩
    rw [List.flatMap_append, List.flatMap_singleton]
    exact hext₁.trans hext₂
  · obtain ⟨b, hb, hp⟩ := List.mem_flatMap.mp hp
    exact hsolves b (hdone b hb) p hp

/-- A variable that a class stands for is bound, whichever of the two classes it is. -/
lemma bind_solves {t : MonoTypeUnifier} (h : StandsFor t root θ) (hkeeps : Keeps s t)
    (hl : root l ∈ t.m.nodes) (hr : root r ∈ t.m.nodes) {x : Bytes} (hx : l.subst θ = var x)
    (hne : r.subst θ ≠ var x) (hsolution : ∃ σ, Absorbs σ θ ∧ Solves σ [(l, r)])
    (hleast : ∀ y, r.subst θ = var y → y ≤ x) :
    (joinNodeTypes { t with bcount := t.bcount + 1 } (root l) (root r)).Meets (SolvedFrom s θ [(l, r)]) False ∧
      (joinNodeTypes { t with bcount := t.bcount + 1 } (root r) (root l)).Meets (SolvedFrom s θ [(r, l)]) False := by
  obtain ⟨σ, hσ, hsolves⟩ := hsolution
  have hext : Extends θ [(l, r)] (bindVar θ x (r.subst θ)) :=
    .of_var h.idem hx hne ⟨σ, hσ, solves_singleton.mp hsolves⟩ hleast
  have hl' : (root l).subst θ = var x := (h.subst_root l).trans hx
  have hr' : (root r).subst θ = r.subst θ := h.subst_root r
  have hlr : (root l).subst (bindVar θ x (r.subst θ)) = (root r).subst (bindVar θ x (r.subst θ)) := by
    rw [← hext.absorbs.subst (root l), ← hext.absorbs.subst (root r), hl', hr', hext.absorbs.subst r, ← hx,
      hext.absorbs.subst l]
    exact solves_singleton.mp hext.solves
  have hkept : ∀ y, θ y = var y → y ≠ x → bindVar θ x (r.subst θ) y = var y := by
    intro y hy hyx
    rw [bindVar, hy, subst_var, Function.update_of_ne hyx]
  -- The lesser of the variables of both classes is kept.
  have hnew : ∀ y z, r.subst θ = var y → (z = x ∧ x ≤ y ∨ z = y ∧ y ≤ x) →
      bindVar θ x (r.subst θ) z = var z := by
    intro y z hy hz
    have hyx : y ≠ x := fun hyx => hne (hyx ▸ hy)
    rcases hz with ⟨-, hle⟩ | ⟨rfl, -⟩
    · exact absurd (List.le_antisymm (hleast y hy) hle) hyx
    · have hfix := h.idem.subst r
      rw [hy, subst_var] at hfix
      exact hkept z hfix hyx
  have hne' : (root l).subst θ ≠ (root r).subst θ := by
    rw [hl', hr']
    exact hne.symm
  constructor
  · obtain ⟨m, root', hjoin, hs', hkeeps'⟩ := h.joinNodeTypes_spec hl hr (t.bcount + 1)
      (.inl ⟨Nat.lt_succ_self _, hne'⟩) hext.idem hext.absorbs hlr
      (fun a y z ha hy hz => by
        rw [hl', var.injEq] at ha
        subst ha
        exact hnew y z (hr'.symm.trans hy) hz)
      fun y hy hyl _ => hkept y hy fun hyx => hyl (by rw [hl', hyx])
    rw [hjoin]
    exact ⟨root', _, hs', hkeeps.trans hkeeps', hext⟩
  · obtain ⟨m, root', hjoin, hs', hkeeps'⟩ := h.joinNodeTypes_spec hr hl (t.bcount + 1)
      (.inl ⟨Nat.lt_succ_self _, hne'.symm⟩) hext.idem hext.absorbs hlr.symm
      (fun y a z hy ha hz => by
        rw [hl', var.injEq] at ha
        subst ha
        exact hnew y z (hr'.symm.trans hy) hz.symm)
      fun y hy _ hyl => hkept y hy fun hyx => hyl (by rw [hl', hyx])
    rw [hjoin]
    exact ⟨root', _, hs', hkeeps.trans hkeeps', hext.congr fun σ _ => solves_swap⟩

/-- Two types that have a solution are unified in the most general way. -/
lemma unify_solves (fuel : ℕ) (h : StandsFor s root θ) (hsolution : ∃ σ, Absorbs σ θ ∧ Solves σ [(l, r)]) :
    (s.unify fuel l r).Meets (SolvedFrom s θ [(l, r)]) False := by
  induction fuel generalizing s root θ l r with
  | zero => exact trivial
  | succ fuel ih =>
    obtain ⟨t, ht, hkeeps, hmeml, hmemr, hrun⟩ := h.unify_cases l r
    have hlt : (typeAt t (root l)).subst θ = l.subst θ := ht.value_root l
    have hrt : (typeAt t (root r)).subst θ = r.subst θ := ht.value_root r
    rw [hrun]
    by_cases hsame : typeAt t (root l) = typeAt t (root r)
    · rw [if_pos hsame]
      exact ⟨root, θ, ht, hkeeps, .of_eq h.idem (by rw [← hlt, ← hrt, hsame])⟩
    · rw [if_neg hsame]
      have hroots : ∀ {k : TyTerm} {c : TyCtor} {us : List TyTerm}, typeAt t (root k) = app c us →
          k.subst θ = app c (us.map (Term.subst θ)) := fun hk => by rw [← ht.value_root, hk, subst_app]
      cases htypel : typeAt t (root l) with
      | var x =>
        have hx := ht.exists_var htypel
        cases htyper : typeAt t (root r) with
        | app d ts =>
          refine (ht.bind_solves hkeeps hmeml hmemr hx ?_ hsolution ?_).1
          · rw [hroots htyper]
            exact nofun
          · rw [hroots htyper]
            exact nofun
        | var y =>
          have hy := ht.exists_var htyper
          have hne : x ≠ y := fun hxy => hsame (by rw [htypel, htyper, hxy])
          by_cases hle : y ≤ x
          · refine (ht.bind_solves hkeeps hmeml hmemr hx ?_ hsolution ?_).1
            · rw [hy, ne_eq, var.injEq]
              exact hne.symm
            · rintro z hz
              rw [hy, var.injEq] at hz
              rwa [← hz]
          · obtain ⟨σ, hσ, hsolves⟩ := hsolution
            refine (ht.bind_solves hkeeps hmemr hmeml hy ?_ ⟨σ, hσ, solves_swap.mp hsolves⟩ ?_).2
            · rw [hx, ne_eq, var.injEq]
              exact hne
            · rintro z hz
              rw [hx, var.injEq] at hz
              rw [← hz]
              exact List.le_of_lt (not_not.mp fun hlt => hle (List.not_lt.mp hlt))
      | app c ss =>
        cases htyper : typeAt t (root r) with
        | var y =>
          obtain ⟨σ, hσ, hsolves⟩ := hsolution
          refine (ht.bind_solves hkeeps hmemr hmeml (ht.exists_var htyper) ?_ ⟨σ, hσ, solves_swap.mp hsolves⟩ ?_).2
          · rw [hroots htypel]
            exact nofun
          · rw [hroots htypel]
            exact nofun
        | app d ts =>
          have hl := hroots htypel
          have hr := hroots htyper
          obtain ⟨hcd, hlen⟩ : c = d ∧ ss.length = ts.length := by
            obtain ⟨σ, hσ, hsolves⟩ := hsolution
            have heq := solves_singleton.mp hsolves
            rw [← hσ.subst, hl, ← hσ.subst r, hr, subst_app, subst_app] at heq
            obtain ⟨rfl, hargs⟩ := Term.app.inj heq
            have hlen := congrArg List.length hargs
            rw [List.length_map, List.length_map, List.length_map, List.length_map] at hlen
            exact ⟨rfl, hlen⟩
          subst hcd
          -- The arguments have the solutions of the types.
          have hargs : ∀ σ, Absorbs σ θ → (Solves σ (ss.zip ts) ↔ Solves σ [(l, r)]) := by
            intro σ hσ
            rw [solves_zip hlen, solves_singleton, ← hσ.subst l, ← hσ.subst r, hl, hr, subst_app, subst_app,
              Term.app.injEq, List.map_map, List.map_map]
            have hmap : Term.subst σ ∘ Term.subst θ = Term.subst σ := funext hσ.subst
            rw [hmap]
            exact (and_iff_right rfl).symm
          dsimp only
          rw [if_neg (by rw [not_or, not_not, not_not]; exact ⟨hlen, rfl⟩)]
          obtain ⟨σ, hσ, hsolves⟩ := hsolution
          have hloop : (Outcome.foldOver (fun s p => MonoTypeUnifier.unify fuel s p.1 p.2) t (ss.zip ts)).Meets
              (SolvedFrom t θ ((ss.zip ts).flatMap fun p => [p])) False :=
            ht.foldOver_solves ⟨σ, hσ, by
              rw [List.flatMap_singleton']
              exact (hargs σ hσ).mpr hsolves⟩ fun p _ s root θ hs hp => ih hs hp
          refine hloop.bind ?_
          rintro s₁ ⟨root₁, θ₁, h₁, hkeeps₁, hext⟩
          rw [List.flatMap_singleton'] at hext
          have hext' : Extends θ [(l, r)] θ₁ := hext.congr hargs
          have hmade : ∀ {k : TyTerm} {us : List TyTerm}, k.subst θ = app c (us.map (Term.subst θ)) →
              (root k).subst θ₁ = app c ((us.map (Term.subst θ)).map (Term.subst θ₁)) := fun {k us} hk => by
            rw [← hext.absorbs.subst, ht.subst_root, hk, subst_app]
          have heq : (root l).subst θ₁ = (root r).subst θ₁ := by
            rw [← hext.absorbs.subst (root l), ← hext.absorbs.subst (root r), ht.subst_root, ht.subst_root,
              hext.absorbs.subst, hext.absorbs.subst]
            exact solves_singleton.mp hext'.solves
          obtain ⟨m, root', hjoin, hs', hkeeps'⟩ := h₁.joinNodeTypes_spec (hkeeps₁.mem _ hmeml)
            (hkeeps₁.mem _ hmemr) s₁.bcount (.inr ⟨rfl, rfl⟩) h₁.idem h₁.idem heq
            (fun x y z hx => by
              rw [hmade hl] at hx
              cases hx)
            fun x hx _ _ => hx
          rw [show joinNodeTypes s₁ (root l) (root r) = .returns ⟨m, s₁.bcount⟩ from hjoin]
          exact ⟨root', θ₁, hs', (hkeeps.trans hkeeps₁).trans hkeeps', hext'⟩

/-- Substitution does not throw where no marks are left. -/
lemma substitute_meets (h : StandsFor s root θ) (hmarks : ∀ k, ¬ visitedAt s k) (fuel : ℕ) (t : TyTerm) :
    (s.substitute fuel t).Meets (fun p => p.2 = t.subst θ ∧ StandsFor p.1 root θ ∧ ∀ k, ¬ visitedAt p.1 k) False := by
  obtain ⟨s', hrun, hread⟩ :=
    h.substitute_eq (fun k hk => absurd hk (hmarks k)) (Nat.le_max_right fuel (t.subst θ).size)
  rcases substitute_le (Nat.le_max_left fuel (t.subst θ).size) s t with hruns | heq
  · rw [hruns]
    exact trivial
  · rw [heq, hrun]
    exact ⟨rfl, hread.stands, hread.substitutes.keeps.unmarked hmarks⟩

end StandsFor

end Hobbes.Lang
