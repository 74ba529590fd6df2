import Hobbes.Lang.UnifierBindings

/-!
# Copies of a unifier

A unifier is copied by joining again what it has joined. The copy has the same classes, and keeps one of its types for
each of them, where types may have been substituted before. So it goes on as if it had unified the equations itself.
-/

namespace Hobbes.Lang

open Core Term EquivalenceMapping Forest

/-! ### Copying -/

/-- The order in which the keys of a hash map come. -/
structure KeyOrder where
  keys : EqNodes TyTerm UTypeRec → List TyTerm
  perm : ∀ nodes, (keys nodes).Perm nodes.keys

/-- The unifier, whose paths are compressed by this, and its copy. -/
def MonoTypeUnifier.copy (o : KeyOrder) (s : MonoTypeUnifier) : Option (MonoTypeUnifier × MonoTypeUnifier) :=
  (merge liftUType true false (o.keys s.m.nodes) fun isCopy => if isCopy then EquivalenceMapping.empty else s.m).map
    fun p => (⟨p.1 false, s.bcount⟩, ⟨p.1 true, s.bcount⟩)

/-! ### Substitution that is given up -/

namespace MonoTypeUnifier

/-- `f` for each type, as long as it does not throw. -/
def substituteEach (f : MonoTypeUnifier → TyTerm → Outcome (MonoTypeUnifier × Option TyTerm)) :
    MonoTypeUnifier → List TyTerm → Outcome (MonoTypeUnifier × Option (List TyTerm))
  | s, [] => .returns (s, some [])
  | s, t :: ts => (f s t).bind fun p =>
    match p.2 with
    | none => .returns (p.1, none)
    | some u => (substituteEach f p.1 ts).bind fun q => .returns (q.1, q.2.map (u :: ·))

/-- `substitute` with the state that it leaves behind, and what it returns unless it throws. -/
def substituteUpTo : ℕ → MonoTypeUnifier → TyTerm → Outcome (MonoTypeUnifier × Option TyTerm)
  | 0, _, _ => .runsOn
  | fuel + 1, s, ty =>
    if isMonoSingular ty then return (s, some ty)
    else do
      let (m, k) ← Outcome.ofOption (findNode liftUType s.m ty)
      let uty ← Outcome.ofOption ((m.nodes.lookup k).map Eqsetmem.value)
      if 0 < uty.donebc ∧ uty.donebc = s.bcount then return ({ s with m := m }, some uty.ty)
      else if uty.visited then return ({ s with m := m }, none)
      else
        match uty.ty with
        | .var v => do
          let (m, u) ← Outcome.ofOption (find liftUType m (.var v))
          return ({ s with m := modifyNode m k fun uty => { uty with ty := u.ty, donebc := s.bcount } }, some u.ty)
        | .app c ts => do
          let s := { s with m := modifyNode m k fun uty => { uty with visited := true } }
          let (s, args) ← substituteEach (substituteUpTo fuel) s ts
          match args with
          | none => return (s, none)
          | some args =>
            let m := modifyNode s.m k fun _ => ⟨.app c args, false, s.bcount⟩
            return ({ s with m := m }, some (.app c args))

end MonoTypeUnifier

open MonoTypeUnifier

lemma foldOver_substitute {f : MonoTypeUnifier → TyTerm → Outcome (MonoTypeUnifier × Option TyTerm)}
    {g : MonoTypeUnifier → TyTerm → Outcome (MonoTypeUnifier × TyTerm)}
    (h : ∀ s t, g s t = (f s t).bind fun q => (q.2.elim .throws fun u => .returns (q.1, u)))
    (s : MonoTypeUnifier) (us ts : List TyTerm) :
    Outcome.foldOver (fun p t => (g p.1 t).bind fun q => .returns (q.1, p.2 ++ [q.2])) (s, us) ts =
      (substituteEach f s ts).bind fun q => q.2.elim .throws fun vs => .returns (q.1, us ++ vs) := by
  induction ts generalizing s us with
  | nil => simp [Outcome.foldOver, substituteEach]
  | cons t ts ih =>
    rw [Outcome.foldOver, substituteEach, h]
    cases f s t with
    | runsOn => rfl
    | throws => rfl
    | returns q =>
      obtain ⟨s', u⟩ := q
      cases u with
      | none => rfl
      | some u =>
        simp only [Outcome.returns_bind, Option.elim_some, ih]
        cases substituteEach f s' ts with
        | runsOn => rfl
        | throws => rfl
        | returns q =>
          obtain ⟨s'', vs⟩ := q
          cases vs <;> simp

lemma substituteEach_le {f g : MonoTypeUnifier → TyTerm → Outcome (MonoTypeUnifier × Option TyTerm)}
    (h : ∀ s t, (f s t).Le (g s t)) (s : MonoTypeUnifier) (ts : List TyTerm) :
    (substituteEach f s ts).Le (substituteEach g s ts) := by
  induction ts generalizing s with
  | nil => exact .refl _
  | cons t ts ih =>
    refine (h s t).bind fun p => ?_
    obtain ⟨s', u⟩ := p
    cases u with
    | none => exact .refl _
    | some u => exact (ih s').bind fun q => .refl _

lemma substituteUpTo_le {n m : ℕ} (h : n ≤ m) (s : MonoTypeUnifier) (t : TyTerm) :
    (s.substituteUpTo n t).Le (s.substituteUpTo m t) := by
  induction n generalizing m s t with
  | zero => exact .inl rfl
  | succ n ih =>
    cases m with
    | zero => cases h
    | succ m =>
      simp only [substituteUpTo, Outcome.bind_def]
      split_ifs
      · exact .refl _
      · refine Outcome.Le.bind (.refl _) fun p => Outcome.Le.bind (.refl _) fun uty => ?_
        split_ifs
        · exact .refl _
        · exact .refl _
        · cases uty.ty with
          | var v => exact .refl _
          | app c ts =>
            exact (substituteEach_le (fun s t => ih (Nat.le_of_succ_le_succ h) s t) _ _).bind fun q => .refl _

/-- They are one function. -/
lemma substitute_eq (fuel : ℕ) (s : MonoTypeUnifier) (t : TyTerm) :
    s.substitute fuel t = (s.substituteUpTo fuel t).bind fun q => q.2.elim .throws fun u => .returns (q.1, u) := by
  induction fuel generalizing s t with
  | zero => rfl
  | succ fuel ih =>
    simp only [MonoTypeUnifier.substitute, substituteUpTo, Outcome.bind_def, Outcome.pure_def]
    split_ifs with hmono
    · rfl
    · cases findNode liftUType s.m t with
      | none => rfl
      | some p =>
        obtain ⟨m, k⟩ := p
        simp only [Outcome.ofOption_some, Outcome.returns_bind]
        cases (m.nodes.lookup k).map Eqsetmem.value with
        | none => rfl
        | some uty =>
          simp only [Outcome.ofOption_some, Outcome.returns_bind]
          split_ifs
          · rfl
          · rfl
          · cases uty.ty with
            | var v =>
              dsimp only
              cases find liftUType m (.var v) <;> rfl
            | app c ts =>
              dsimp only
              rw [foldOver_substitute ih]
              cases substituteEach (substituteUpTo fuel)
                  { s with m := modifyNode m k fun uty => { uty with visited := true } } ts with
              | runsOn => rfl
              | throws => rfl
              | returns q =>
                obtain ⟨s', vs⟩ := q
                cases vs <;> rfl

/-! ### The copy's classes -/

namespace Gathered

variable {E : Equations TyCtor Bytes} {s : MonoTypeUnifier} {root : TyTerm → TyTerm}

lemma empty (E : Equations TyCtor Bytes) (bc : ℕ) : Gathered E ⟨EquivalenceMapping.empty, bc⟩ fun k => k :=
  (Unified.empty E).gathered.congr Rooted.empty (fun _ => rfl) fun _ => rfl

/-- Two types that are forced to be equal are joined. -/
lemma join (h : Gathered E s root) (hsolid : Solid s root) {k r : TyTerm} (heq : Equated E k r)
    (hsize : s.bcount = 0 → k.size = r.size)
    (hsizes : ∀ u v, typeVars u = [] → typeVars v = [] → Equated E u v → u.size = v.size) :
    ∃ m root', EquivalenceMapping.join liftUType s.m k r = some m ∧ Gathered E { s with m := m } root' ∧
      Solid { s with m := m } root' ∧ (∀ a b, root a = root b → root' a = root' b) ∧ root' k = root' r := by
  obtain ⟨m, root', hjoin, hrooted, -, hsame, hlink⟩ := h.rooted.join_spec liftUType k r
  refine ⟨m, root', hjoin, ?_⟩
  by_cases hkr : root k = root r
  · obtain ⟨rfl, hvalue⟩ := hsame hkr
    exact ⟨h.congr hrooted hvalue id, hsolid.congr fun k => congrArg UTypeRec.ty (hvalue k), fun _ _ hab => hab, hkr⟩
  · obtain ⟨a, b, hends, rfl, hvalue, hother⟩ := hlink hkr
    have hroot : ∀ t, Equated E (root t) t := fun t => h.sound _ _ (h.root_root t)
    have hsz : ∀ t, s.bcount = 0 → (root t).size = t.size := fun t hz => h.zero hz _ _ (h.root_root t)
    have hab : root a = a ∧ root b = b ∧ Equated E a b ∧ (s.bcount = 0 → a.size = b.size) := by
      have hkr := ((hroot k).trans heq).trans (hroot r).symm
      rcases hends with ⟨rfl, rfl⟩ | ⟨rfl, rfl⟩
      · exact ⟨h.root_root k, h.root_root r, hkr, fun hz => (hsz k hz).trans ((hsize hz).trans (hsz r hz).symm)⟩
      · exact ⟨h.root_root r, h.root_root k, hkr.symm,
          fun hz => (hsz r hz).trans ((hsize hz).symm.trans (hsz k hz).symm)⟩
    obtain ⟨ha, hb, heqab, hzero⟩ := hab
    refine ⟨h.link ha hb hrooted heqab hzero hvalue hother, hsolid.link h ha hb hvalue hother ?_,
      fun u v huv => (relink_eq_iff root).mpr (.inl huv), ?_⟩
    · intro u v hu hv hua hvb
      refine hsizes u v hu hv (((hroot u).symm.trans ?_).trans (hroot v))
      rw [hua, hvb]
      exact heqab
    · exact (relink_eq_iff root).mpr
        (.inr (hends.imp (fun h => ⟨h.1.symm, h.2.symm⟩) fun h => ⟨h.2.symm, h.1.symm⟩))

lemma addNodes {ks : List TyTerm} (h : Gathered E s root) (hsolid : Solid s root) :
    Gathered E { s with m := EquivalenceMapping.addNodes liftUType s.m ks } root ∧
      Solid { s with m := EquivalenceMapping.addNodes liftUType s.m ks } root := by
  induction ks generalizing s with
  | nil => exact ⟨h, hsolid⟩
  | cons k ks ih =>
    rw [EquivalenceMapping.addNodes, List.foldl_cons, ← EquivalenceMapping.addNodes]
    split_ifs with hk
    · exact ih h hsolid
    · have hvalue : ∀ a, valueAt liftUType (s.m.nodes.insert k ⟨liftUType k, 0, k⟩) a =
          valueAt liftUType s.m.nodes a := fun a => by
        rcases eq_or_ne a k with rfl | ha
        · rw [valueAt_of_lookup liftUType (AList.lookup_insert s.m.nodes), valueAt, AList.lookup_eq_none.mpr hk]
          rfl
        · exact valueAt_insert_of_ne liftUType _ ha
      exact ih (s := ⟨{ s.m with nodes := s.m.nodes.insert k ⟨liftUType k, 0, k⟩ }, s.bcount⟩)
        (h.congr (h.rooted.insert_new hk _) hvalue id) (hsolid.congr fun k => congrArg UTypeRec.ty (hvalue k))

/-- Each key is joined with its root. -/
lemma replay {bc : ℕ} {rootc : TyTerm → TyTerm} {ms : Pool Bool TyTerm UTypeRec} {ks : List TyTerm}
    (hsource : Rooted (ms false).nodes root) (hks : ∀ k ∈ ks, k ∈ (ms false).nodes)
    (h : Gathered E ⟨ms true, bc⟩ rootc) (hsolid : Solid ⟨ms true, bc⟩ rootc)
    (heq : ∀ k, Equated E k (root k)) (hzero : bc = 0 → ∀ k, k.size = (root k).size)
    (hsizes : ∀ u v, typeVars u = [] → typeVars v = [] → Equated E u v → u.size = v.size) :
    ∃ ms' rootc', EquivalenceMapping.replay liftUType true false ks ms = some ms' ∧
      Compressed root (ms false).nodes (ms' false).nodes ∧ Gathered E ⟨ms' true, bc⟩ rootc' ∧
      Solid ⟨ms' true, bc⟩ rootc' ∧ (∀ a b, rootc a = rootc b → rootc' a = rootc' b) ∧
      ∀ k ∈ ks, rootc' k = rootc' (root k) := by
  induction ks generalizing ms rootc with
  | nil => exact ⟨ms, rootc, rfl, .refl root _, h, hsolid, fun _ _ hab => hab, fun _ => nofun⟩
  | cons k ks ih =>
    obtain ⟨nodes, hfind, hcomp⟩ := hsource.findRepresentative_spec (hks k List.mem_cons_self)
    have hks' : ∀ a ∈ ks, a ∈ nodes := fun a ha => (hcomp.mem_iff a).mpr (hks a (List.mem_cons_of_mem k ha))
    set ms₁ := Function.update ms false { ms false with nodes := nodes } with hms₁
    have hfalse : (ms₁ false).nodes = nodes := by rw [hms₁, Function.update_self]
    have htrue : ms₁ true = ms true := by rw [hms₁, Function.update_of_ne (by decide)]
    have hrest : ∀ m root₁, Gathered E ⟨m, bc⟩ root₁ → Solid ⟨m, bc⟩ root₁ →
        (∀ a b, rootc a = rootc b → root₁ a = root₁ b) → root₁ k = root₁ (root k) →
        ∃ ms' rootc', EquivalenceMapping.replay liftUType true false ks (Function.update ms₁ true m) = some ms' ∧
          Compressed root (ms false).nodes (ms' false).nodes ∧ Gathered E ⟨ms' true, bc⟩ rootc' ∧
          Solid ⟨ms' true, bc⟩ rootc' ∧ (∀ a b, rootc a = rootc b → rootc' a = rootc' b) ∧
          ∀ a ∈ k :: ks, rootc' a = rootc' (root a) := by
      intro m root₁ hg hsolid hgrow hkr
      have hself : (Function.update ms₁ true m false).nodes = nodes := by
        rw [Function.update_of_ne (by decide), hfalse]
      obtain ⟨ms', rootc', hrun, hcomp', hg', hsolid', hgrow', hjoined⟩ := @ih
        root₁ (Function.update ms₁ true m) (hself ▸ hcomp.rooted hsource) (hself ▸ hks')
        (by rwa [Function.update_self]) (by rwa [Function.update_self])
      rw [hself] at hcomp'
      exact ⟨ms', rootc', hrun, hcomp.trans hcomp', hg', hsolid', fun a b hab => hgrow' a b (hgrow a b hab),
        List.forall_mem_cons.mpr ⟨hgrow' _ _ hkr, hjoined⟩⟩
    rw [EquivalenceMapping.replay, hfind, Option.bind_some]
    simp only [← hms₁]
    by_cases hk : k = root k
    · rw [if_neg (not_not.mpr hk)]
      have hsame := hrest (ms true) rootc h hsolid (fun _ _ hab => hab) (congrArg rootc hk)
      rwa [← htrue, Function.update_eq_self] at hsame
    · obtain ⟨m, root₁, hjoin, hg, hsolid₁, hgrow, hkr⟩ := h.join hsolid (heq k) (fun hz => hzero hz k) hsizes
      rw [if_pos hk, htrue, hjoin, Option.bind_some]
      exact hrest m root₁ hg hsolid₁ hgrow hkr

end Gathered

/-! ### Unifiers whose equations have a solution -/

/-- Where equations have been unified that have a solution, the unifier stands for a most general one. -/
lemma Unified.mostGeneral {E : Equations TyCtor Bytes} {s : MonoTypeUnifier} {root : TyTerm → TyTerm}
    (h : Unified E s root) (hE : ∀ p ∈ E, root p.1 = root p.2) (hsolves : ∃ σ, Solves σ E) :
    ∃ θ, StandsFor s root θ ∧ MostGeneral θ E := by
  obtain ⟨hsame, hfin⟩ := exists_solves_iff.mp hsolves
  have hstands := h.standsFor hE hsame hfin
  refine ⟨_, hstands, fun p hp => hstands.sound _ _ (hE p hp), fun σ hσ x => ?_⟩
  -- Induction over the type that `x` comes to.
  suffices hto : ∀ t, IsFinite E t →
      ((resolve hfin t).subst fun z => typeAt s (root (var z))).subst σ = t.subst σ from
    (hto (var x) (hfin _)).trans (subst_var σ x)
  intro t ht
  induction ht with
  | intro t _ ih =>
    cases hhead : headOf E t with
    | some p =>
      have heq := equated_headOf hhead
      rw [Term.resolve_eq, hhead, hσ.equated heq]
      dsimp only
      rw [subst_app, subst_app, subst_app, List.map_map, List.map_map]
      exact congrArg (app p.1) (List.map_congr_left fun u hu => ih u ⟨p.1, p.2, heq, hu⟩)
    | none =>
      cases t with
      | app c ts =>
        obtain ⟨p, hp⟩ := exists_headOf (.refl (app c ts))
        rw [hhead] at hp
        cases hp
      | var x =>
        obtain ⟨y, hy, hxy⟩ := equated_varOf (.refl (var x))
        rw [Term.resolve_eq, hhead]
        dsimp only
        rw [hy, subst_var, hσ.equated hxy]
        exact hσ.equated (h.sound _ _ ((h.type_mem _).trans (h.root_root _)))

/-! ### Variables -/

lemma subst_congr {θ σ : Bytes → TyTerm} {t : TyTerm} (h : ∀ x ∈ typeVars t, θ x = σ x) : t.subst θ = t.subst σ := by
  induction t using Term.induct with
  | var x =>
    rw [subst_var, subst_var]
    exact h x (by rw [typeVars]; exact List.mem_singleton_self x)
  | app c ts ih =>
    rw [subst_app, subst_app]
    refine congrArg (app c) (List.map_congr_left fun t ht => ih t ht fun x hx => h x ?_)
    rw [typeVars]
    clear ih h
    induction ts with
    | nil => cases ht
    | cons u us ihus =>
      rw [typesVars]
      rcases List.mem_cons.mp ht with rfl | ht
      · exact List.mem_union_iff.mpr (.inl hx)
      · exact List.mem_union_iff.mpr (.inr (ihus ht))

lemma subst_of_typeVars {t : TyTerm} (h : typeVars t = []) (θ : Bytes → TyTerm) : t.subst θ = t := by
  refine Eq.trans (b := t.subst var) (subst_congr fun x hx => ?_) (subst_id t)
  rw [h] at hx
  cases hx

/-! ### Unifiers that have solved equations -/

/-- A unifier that has solved these equations. Types may have been substituted. -/
structure Settled (P : Equations TyCtor Bytes) (s : MonoTypeUnifier) (θ : Bytes → TyTerm) : Prop where
  mostGeneral : MostGeneral θ P
  unmarked : ∀ k, ¬ visitedAt s k
  classes : ∃ E root, StandsFor s root θ ∧ (∀ a b, Equated E a b ↔ root a = root b) ∧
    (s.bcount = 0 → ∀ a b, root a = root b → a.size = b.size) ∧ MostGeneral θ E

/-- No types have been substituted yet. -/
structure Copied (P : Equations TyCtor Bytes) (s : MonoTypeUnifier) (θ : Bytes → TyTerm) : Prop where
  mostGeneral : MostGeneral θ P
  classes : ∃ E root, Unified E s root ∧ (∀ p ∈ E, root p.1 = root p.2) ∧ MostGeneral θ E ∧ Solid s root

namespace Settled

variable {P : Equations TyCtor Bytes} {s : MonoTypeUnifier} {θ : Bytes → TyTerm}

lemma empty : Settled [] MonoTypeUnifier.empty var := by
  refine ⟨.nil, fun _ => Bool.false_ne_true, [], fun k => k, .empty, fun a b => ⟨equated_nil, ?_⟩, ?_, .nil⟩
  · rintro rfl
    exact .refl a
  · rintro - a b rfl
    rfl

lemma exists_substitute (h : Settled P s θ) {t : TyTerm} {fuel : ℕ} (hfuel : (t.subst θ).size ≤ fuel) :
    ∃ s', s.substitute fuel t = .returns (s', t.subst θ) ∧ Settled P s' θ := by
  obtain ⟨E, root, hstands, hE, hzero, hgen⟩ := h.classes
  obtain ⟨s', hrun, hread⟩ := hstands.substitute_eq (fun k hk => absurd hk (h.unmarked k)) hfuel
  have hb := hread.substitutes.bcount
  exact ⟨s', hrun, h.mostGeneral, hread.substitutes.keeps.unmarked h.unmarked, E, root, hread.stands, hE,
    fun hz => hzero (hb ▸ hz), hgen⟩

/-- Whatever the fuel, nothing else is returned. -/
lemma substitute (h : Settled P s θ) (fuel : ℕ) (t : TyTerm) : s.substitute fuel t = .runsOn ∨
    ∃ s', s.substitute fuel t = .returns (s', t.subst θ) ∧ Settled P s' θ := by
  rcases substitute_le (Nat.le_max_left fuel (t.subst θ).size) s t with hruns | heq
  · exact .inl hruns
  · rw [heq]
    exact .inr (h.exists_substitute (Nat.le_max_right _ _))

lemma substituteUpTo (h : Settled P s θ) (fuel : ℕ) (t : TyTerm) : s.substituteUpTo fuel t = .runsOn ∨
    ∃ s', s.substituteUpTo fuel t = .returns (s', some (t.subst θ)) ∧ Settled P s' θ := by
  have heq := substitute_eq fuel s t
  rcases h.substitute fuel t with hruns | ⟨s', hrun, hs'⟩
  · rw [hruns] at heq
    refine .inl ((Outcome.bind_eq_runsOn.mp heq.symm).resolve_right ?_)
    rintro ⟨⟨s', u⟩, -, hu⟩
    cases u <;> cases hu
  · rw [hrun] at heq
    obtain ⟨⟨s'', u⟩, hupTo, hu⟩ := Outcome.bind_eq_returns.mp heq.symm
    cases u with
    | none => cases hu
    | some u =>
      cases hu
      exact .inr ⟨_, hupTo, hs'⟩

lemma substituteUpTo_meets (h : Settled P s θ) (fuel : ℕ) (t : TyTerm) : (s.substituteUpTo fuel t).Meets
    (fun r => Settled P r.1 θ ∧ r.2 = some (t.subst θ)) False := by
  rcases h.substituteUpTo fuel t with hruns | ⟨s', hrun, hs'⟩
  · rw [hruns]
    exact trivial
  · rw [hrun]
    exact ⟨hs', rfl⟩

lemma exists_substituteUpTo (h : Settled P s θ) (t : TyTerm) : ∃ fuel, s.substituteUpTo fuel t ≠ .runsOn := by
  obtain ⟨s', hrun, -⟩ := h.exists_substitute (t := t) le_rfl
  refine ⟨(t.subst θ).size, fun hruns => ?_⟩
  rw [substitute_eq, hruns] at hrun
  cases hrun

lemma copy (h : Settled P s θ) (o : KeyOrder) :
    ∃ s' c, s.copy o = some (s', c) ∧ Settled P s' θ ∧ Copied P c θ := by
  obtain ⟨E, root, hstands, hE, hzero, hgen⟩ := h.classes
  have hmem : ∀ k, k ∈ o.keys s.m.nodes ↔ k ∈ s.m.nodes := fun k => by
    rw [(o.perm s.m.nodes).mem_iff, AList.mem_keys]
  have hclosed : ∀ u v : TyTerm, typeVars u = [] → typeVars v = [] → Equated E u v → u.size = v.size := by
    intro u v hu hv huv
    have heq := hgen.solves.equated huv
    rw [subst_of_typeVars hu, subst_of_typeVars hv] at heq
    rw [heq]
  obtain ⟨hgathered, hsolid⟩ := @Gathered.addNodes E _ _ (o.keys s.m.nodes) (.empty E s.bcount) fun t ht => ⟨ht, rfl⟩
  obtain ⟨ms, rootc, hrun, hcomp, hgathered', hsolid', -, hjoined⟩ := @Gathered.replay E root s.bcount _
    (Function.update (fun isCopy => if isCopy then EquivalenceMapping.empty else s.m) true
      (EquivalenceMapping.addNodes liftUType EquivalenceMapping.empty (o.keys s.m.nodes))) (o.keys s.m.nodes)
    (by rw [Function.update_of_ne (by decide)]; exact hstands.rooted)
    (fun k hk => by rw [Function.update_of_ne (by decide)]; exact (hmem k).mp hk)
    (by rw [Function.update_self]; exact hgathered) (by rw [Function.update_self]; exact hsolid)
    (fun k => (hE _ _).mpr (hstands.root_root k).symm) (fun hz k => hzero hz _ _ (hstands.root_root k).symm) hclosed
  rw [Function.update_of_ne (by decide)] at hcomp
  have hclasses : ∀ a b, rootc a = rootc b ↔ root a = root b := by
    refine fun a b => ⟨fun hab => (hE a b).mp (hgathered'.sound a b hab), fun hab => ?_⟩
    have hmemiff : a ∈ s.m.nodes ↔ b ∈ s.m.nodes := by
      rw [← hstands.rooted.root_mem_iff, hab, hstands.rooted.root_mem_iff]
    by_cases ha : a ∈ s.m.nodes
    · rw [hjoined a ((hmem a).mpr ha), hab, hjoined b ((hmem b).mpr (hmemiff.mp ha))]
    · rw [hstands.rooted.root_of_notMem ha, hstands.rooted.root_of_notMem (hmemiff.not.mp ha)] at hab
      rw [hab]
  have hvalue : ∀ k, valueAt liftUType (ms false).nodes k = valueAt liftUType s.m.nodes k :=
    fun k => hcomp.valueAt liftUType k
  refine ⟨⟨ms false, s.bcount⟩, ⟨ms true, s.bcount⟩, ?_, ⟨h.mostGeneral, fun k hk => h.unmarked k ?_, E, root,
    hstands.congr (hcomp.rooted hstands.rooted) (fun k => congrArg UTypeRec.ty (hvalue k))
      (fun k => congrArg UTypeRec.donebc (hvalue k)) rfl, hE, hzero, hgen⟩, h.mostGeneral, E, rootc, ?_,
    fun p hp => (hclasses _ _).mpr ((hE _ _).mp (.pair hp)), hgen, hsolid'⟩
  · rw [MonoTypeUnifier.copy, merge]
    simp only [if_true, hrun, Option.map_some]
  · rwa [visitedAt, ← hvalue]
  · refine .of_gathered hgathered' fun c d ss ts hcd => ?_
    have heq := hgathered'.sound _ _ hcd
    obtain ⟨rfl, hlen⟩ := hgen.solves.same c d ss ts heq
    exact ⟨rfl, hlen, fun i a b ha hb => (hclasses a b).mpr ((hE a b).mp (heq.arg ha hb))⟩

end Settled

/-! ### Unification with a copy -/

namespace Copied

variable {P : Equations TyCtor Bytes} {c : MonoTypeUnifier} {θ : Bytes → TyTerm} {q k : TyTerm}

/-- What solves the next equation as well solves what is left of it. -/
lemma solves_append_iff {E : Equations TyCtor Bytes} (hP : MostGeneral θ P) (hE : MostGeneral θ E)
    (σ : Bytes → TyTerm) : Solves σ (P ++ [(q, k)]) ↔ Solves σ (E ++ [(q.subst θ, k.subst θ)]) := by
  rw [solves_append, solves_append, hP.solves_iff, hE.solves_iff, solves_singleton, solves_singleton]
  refine and_congr_right fun hσ => ?_
  rw [hσ.subst, hσ.subst]

/-- Types are unified up to what is not told apart by the names of constructors. -/
lemma unify_meets (h : Copied P c θ) (fuel : ℕ) : (c.unify fuel (q.subst θ) (k.subst θ)).Meets
    (fun c' => Joinable TyCtor.cname [(q.subst θ, k.subst θ)] ∧
      ((∃ σ, Solves σ (P ++ [(q, k)])) → ∃ θ', Settled (P ++ [(q, k)]) c' θ'))
    (¬ Joinable TyCtor.cname [(q.subst θ, k.subst θ)]) := by
  obtain ⟨E, root, hunified, hE, hgen, -⟩ := h.classes
  have hidem := hgen.idempotent
  have hall : Unified (E ++ [(q.subst θ, k.subst θ)]) c root := hunified.mono (List.subset_append_left _ _)
  have hpair : Equated (E ++ [(q.subst θ, k.subst θ)]) (q.subst θ) (k.subst θ) :=
    .pair (List.mem_append_right _ (List.mem_singleton_self _))
  refine (hall.unify_meets fuel hpair).mono ?_ fun hno hjoinable => hno ?_
  · rintro c' ⟨root', hc', hgrow, hjoined⟩
    have hE' : ∀ p ∈ E ++ [(q.subst θ, k.subst θ)], root' p.1 = root' p.2 := by
      refine List.forall_mem_append.mpr ⟨fun p hp => hgrow.root_eq _ _ (hE p hp), hjoined⟩
    have hclasses := hc'.classes hE'
    refine ⟨hclasses.joinable.of_append, fun ⟨σ, hσ⟩ => ?_⟩
    obtain ⟨θ', hstands, hgen'⟩ := hc'.mostGeneral hE' ⟨σ, (solves_append_iff h.mostGeneral hgen σ).mp hσ⟩
    refine ⟨θ', hgen'.congr (solves_append_iff h.mostGeneral hgen), fun k hk => ?_, _, root', hstands,
      hclasses.equated_iff, hc'.zero, hgen'⟩
    rw [visitedAt, (hc'.fresh k).1] at hk
    cases hk
  · intro d e ss ts heq
    have hsubst := heq.subst hgen.solves
      (List.forall_mem_singleton.mpr ⟨hidem.subst q, hidem.subst k⟩)
    rw [subst_app, subst_app] at hsubst
    have := hjoinable d e _ _ hsubst
    rwa [List.length_map, List.length_map] at this

lemma exists_unify (h : Copied P c θ) (hfin : ∀ t, IsFinite [(q.subst θ, k.subst θ)] t) :
    ∃ fuel, c.unify fuel (q.subst θ) (k.subst θ) ≠ .runsOn := by
  obtain ⟨E, root, hunified, -, hgen, -⟩ := h.classes
  have hidem := hgen.idempotent
  have hall : Unified (E ++ [(q.subst θ, k.subst θ)]) c root := hunified.mono (List.subset_append_left _ _)
  exact hall.exists_unify (.of_subst hgen.solves (List.forall_mem_singleton.mpr ⟨hidem.subst q, hidem.subst k⟩)
    (hfin _)) (.pair (List.mem_append_right _ (List.mem_singleton_self _)))

lemma exists_unify_closed (h : Copied P c θ) (hclosed : typeVars (q.subst θ) = [] ∨ typeVars (k.subst θ) = []) :
    ∃ fuel, c.unify fuel (q.subst θ) (k.subst θ) ≠ .runsOn := by
  obtain ⟨E, root, hunified, -, hgen, hsolid⟩ := h.classes
  have hall : Unified (E ++ [(q.subst θ, k.subst θ)]) c root := hunified.mono (List.subset_append_left _ _)
  have hpair : Equated (E ++ [(q.subst θ, k.subst θ)]) (q.subst θ) (k.subst θ) :=
    .pair (List.mem_append_right _ (List.mem_singleton_self _))
  exact ⟨_, (hall.unify_closed hsolid hpair (hclosed.imp (fun hq => ⟨hq, Nat.le_max_left _ _⟩) fun hk =>
    ⟨hk, Nat.le_max_right _ _⟩)).ne_runsOn⟩

end Copied

end Hobbes.Lang
