import Hobbes.Lang.TypeClasses

/-!
# Applying instance generators

A generator's variables are replaced by fresh ones, so that its head has the instances that it had. Unification of the
head with types without variables binds them, and what the requirements become by this is determined by the types.
Refinement binds nothing, as there are no functional dependencies.
-/

namespace Hobbes.Lang

open Core Term

/-! ### Fresh names -/

/-- What a fresh name's digits say. -/
def nameNumber (nm : Bytes) : ℕ := Nat.ofDigitChars 10 ((nm.drop 2).map fun b => Char.ofNat b.toNat) 0

lemma nameNumber_freshName (n : ℕ) : nameNumber (freshName n) = n := by
  have hdigits : ∀ c ∈ Nat.toDigits 10 n, Char.ofNat (UInt8.ofNat c.toNat).toNat = c := by
    intro c hc
    have hdigit := Nat.isDigit_of_mem_toDigits (by decide) (by decide) hc
    have hlt : c.toNat < 256 := by
      rw [Char.isDigit, Bool.and_eq_true, decide_eq_true_iff, decide_eq_true_iff] at hdigit
      have : c.toNat ≤ 57 := UInt32.le_iff_toNat_le.mp hdigit.2
      omega
    rw [UInt8.toNat_ofNat', Nat.mod_eq_of_lt hlt, Char.ofNat_toNat]
  have hstring : (".t" ++ toString n).toList = '.' :: 't' :: Nat.toDigits 10 n := by
    simp
  have hmap : (Nat.toDigits 10 n).map ((fun b : UInt8 => Char.ofNat b.toNat) ∘ fun c => UInt8.ofNat c.toNat) =
      Nat.toDigits 10 n := (List.map_congr_left hdigits).trans (List.map_id _)
  rw [nameNumber, freshName, ascii, hstring, List.map_cons, List.map_cons, List.drop_succ_cons, List.drop_succ_cons,
    List.drop_zero, List.map_map, hmap, Nat.ofDigitChars_ten_toDigits]

lemma freshName_injective : Function.Injective freshName := Function.LeftInverse.injective nameNumber_freshName

lemma lookup_freshSubst (uid : ℕ) (ns : List Bytes) (x : Bytes) :
    (freshSubst uid ns).lookup x = if x ∈ ns then some (var (freshName (uid + ns.idxOf x))) else none := by
  induction ns generalizing uid with
  | nil => rfl
  | cons y ns ih =>
    rw [freshSubst, List.lookup_cons]
    by_cases hxy : x = y
    · subst hxy
      simp
    · rw [beq_false_of_ne hxy, ih, List.idxOf_cons_ne _ (Ne.symm hxy)]
      simp only [List.mem_cons, or_iff_right hxy, Nat.add_right_comm, Nat.add_assoc, Nat.succ_eq_add_one]

/-- The substitution that the pairs say, where what is put in place of variables is not substituted into. -/
def onceSubst (s : List (Bytes × TyTerm)) (x : Bytes) : TyTerm := (s.lookup x).getD (var x)

lemma substituteTerm_meets {s : List (Bytes × TyTerm)}
    (hs : ∀ x t, s.lookup x = some t → ∃ y, t = var y ∧ s.lookup y = none) (fuel : ℕ) (t : TyTerm) :
    (substituteTerm s fuel t).Meets (· = t.subst (onceSubst s)) False := by
  induction fuel generalizing t with
  | zero => exact trivial
  | succ fuel ih =>
    cases t with
    | var x =>
      rw [substituteTerm, subst_var, onceSubst]
      cases hx : s.lookup x with
      | none => exact rfl
      | some t =>
        obtain ⟨y, rfl, hy⟩ := hs x t hx
        have h := ih (var y)
        rw [subst_var, onceSubst, hy] at h
        exact h
    | app c ts =>
      rw [substituteTerm, Outcome.bind_def, subst_app]
      apply Outcome.Meets.bind (Outcome.Meets.foldOver_map (g := Term.subst (onceSubst s)) fun us t _ => ?_)
      · rintro us rfl
        exact rfl
      · rw [Outcome.bind_def]
        apply (ih t).bind
        rintro u rfl
        exact rfl

lemma substituteTerms_meets {s : List (Bytes × TyTerm)}
    (hs : ∀ x t, s.lookup x = some t → ∃ y, t = var y ∧ s.lookup y = none) (fuel : ℕ) (ts : List TyTerm) :
    (substituteTerms s fuel ts).Meets (· = ts.map (Term.subst (onceSubst s))) False := by
  refine Outcome.Meets.foldOver_map fun us t _ => ?_
  split_ifs with ht
  · exact congrArg (us ++ [·]) (subst_of_isMonoSingular ht _).symm
  · rw [Outcome.bind_def]
    apply (substituteTerm_meets hs fuel t).bind
    rintro u rfl
    exact rfl

namespace TCInstanceFn

variable {f : TCInstanceFn}

/-- Each variable of a generator is replaced by another one. -/
structure Renames (f : TCInstanceFn) (ρ : Bytes → TyTerm) : Prop where
  to_var : ∀ x ∈ f.names, ∃ y, ρ x = var y
  inj : ∀ x ∈ f.names, ∀ y ∈ f.names, ρ x = ρ y → x = y

lemma freshDef_meets {uidCtr : ℕ} (hf : ∀ n, uidCtr ≤ n → freshName n ∉ f.names) (fuel : ℕ) :
    (f.freshDef fuel uidCtr).Meets (fun p => uidCtr ≤ p.1 ∧ ∃ ρ, Renames f ρ ∧
      p.2.1 = f.reqs.map (ConstraintSet.Constraint.subst ρ) ∧ p.2.2 = f.itys.map (Term.subst ρ)) False := by
  set ns := f.names.insertionSort (· ≤ ·) with hns
  have hmem : ∀ x, x ∈ ns ↔ x ∈ f.names := fun x => (List.perm_insertionSort _ _).mem_iff
  set s := freshSubst uidCtr ns
  have hs : ∀ x t, s.lookup x = some t → ∃ y, t = var y ∧ s.lookup y = none := by
    intro x t hx
    rw [lookup_freshSubst] at hx
    split_ifs at hx with hxns
    cases hx
    refine ⟨_, rfl, ?_⟩
    rw [lookup_freshSubst, if_neg]
    rw [hmem]
    exact hf _ (Nat.le_add_right _ _)
  have hname : ∀ x ∈ f.names, onceSubst s x = var (freshName (uidCtr + ns.idxOf x)) := by
    intro x hx
    rw [onceSubst, lookup_freshSubst, if_pos ((hmem x).mpr hx), Option.getD_some]
  have hrenames : Renames f (onceSubst s) := by
    constructor
    · intro x hx
      exact ⟨_, hname x hx⟩
    · intro x hx y hy hxy
      rw [hname x hx, hname y hy, var.injEq] at hxy
      exact (List.idxOf_inj ((hmem x).mpr hx)).mp (Nat.add_left_cancel (freshName_injective hxy))
  rw [freshDef, Outcome.bind_def]
  apply (substituteTerms_meets hs fuel f.itys).bind
  rintro argl rfl
  rw [Outcome.bind_def]
  refine Outcome.Meets.bind (Outcome.Meets.foldOver_map (g := ConstraintSet.Constraint.subst (onceSubst s))
    fun cs c _ => ?_) ?_
  · rw [Outcome.bind_def]
    apply (substituteTerms_meets hs fuel c.arguments).bind
    rintro us rfl
    exact rfl
  · rintro acsts rfl
    exact ⟨Nat.le_add_right _ _, onceSubst s, hrenames, rfl, rfl⟩

end TCInstanceFn

/-! ### Unification -/

/-- All equations are solved in the most general way, up to what is not told apart by the names of constructors. -/
lemma mgu_meets (fuel : ℕ) (ts us : List TyTerm) (hlen : ts.length = us.length) :
    (mgu fuel MonoTypeUnifier.empty ts us).Meets (fun u => Joinable TyCtor.cname (ts.zip us) ∧
      ((∃ σ, Solves σ (ts.zip us)) → ∃ root θ, StandsFor u root θ ∧ (∀ k, ¬ visitedAt u k) ∧
        MostGeneral θ (ts.zip us))) (¬ Joinable TyCtor.cname (ts.zip us)) := by
  rw [mgu, if_pos hlen]
  have hjoins := (Unified.empty (ts.zip us)).foldOver_meets fun p hp s root hs => hs.unify_meets fuel (.pair hp)
  refine hjoins.mono ?_ id
  rintro u ⟨root, hu, -, hE⟩
  refine ⟨(hu.classes hE).joinable, fun hsolves => ?_⟩
  obtain ⟨θ, hstands, hgen⟩ := hu.mostGeneral hE hsolves
  refine ⟨root, θ, hstands, fun k hk => ?_, hgen⟩
  rw [visitedAt, (hu.fresh k).1] at hk
  cases hk

/-! ### Refinement -/

namespace TEnv

variable {unquals : Bytes → Option TClass} {s : MonoTypeUnifier} {root : TyTerm → TyTerm} {θ : Bytes → TyTerm}

lemma update_meets (h : StandsFor s root θ) (hmarks : ∀ k, ¬ visitedAt s k) (fuel : ℕ) (c : ConstraintPtr) :
    (update fuel s c).Meets (fun p => p.2 = c.subst θ ∧ StandsFor p.1 root θ ∧ ∀ k, ¬ visitedAt p.1 k) False := by
  rw [update, Outcome.bind_def]
  apply (ConstraintSet.substituteAll_meets h hmarks fuel c.arguments).bind
  rintro ⟨s', mts⟩ ⟨rfl, hs', hmarks'⟩
  exact ⟨rfl, hs', hmarks'⟩

/-- Required constraints that are refined one after the other without an update leave nothing updated. -/
lemma refineRequired_meets {reqs : List ConstraintPtr} {args : List TyTerm} {fuel : ℕ}
    (hreqs : ∀ req ∈ reqs, ∀ s, StandsFor s root θ → (∀ k, ¬ visitedAt s k) →
      (refine unquals fuel s ⟨req.name, instantiates args req.arguments⟩).Meets
        (fun p => p.2.2 = false ∧ StandsFor p.1 root θ ∧ ∀ k, ¬ visitedAt p.1 k) False)
    (h : StandsFor s root θ) (hmarks : ∀ k, ¬ visitedAt s k) :
    (Outcome.foldOver (fun p req => do
      let (s, _, upd) ← refine unquals fuel p.1 ⟨req.name, instantiates args req.arguments⟩
      return (s, p.2 || upd)) (s, false) reqs).Meets
      (fun p => p.2 = false ∧ StandsFor p.1 root θ ∧ ∀ k, ¬ visitedAt p.1 k) False := by
  apply Outcome.Meets.foldOver (fun _ (p : MonoTypeUnifier × Bool) =>
    p.2 = false ∧ StandsFor p.1 root θ ∧ ∀ k, ¬ visitedAt p.1 k) ⟨rfl, h, hmarks⟩
  rintro done req ⟨s, r⟩ hreq ⟨rfl, hs, hmarks⟩
  rw [Outcome.bind_def]
  refine Outcome.Meets.bind (hreqs req hreq s hs hmarks) ?_
  rintro ⟨s', c', upd⟩ ⟨rfl, hs', hmarks'⟩
  exact ⟨rfl, hs', hmarks'⟩

/-- Nothing is bound where all classes that are referred to are there. -/
lemma refine_meets (hknown : ∀ name tc, unquals name = some tc → ∀ c ∈ tc.reqs, ∃ tc', unquals c.name = some tc')
    (fuel : ℕ) (h : StandsFor s root θ) (hmarks : ∀ k, ¬ visitedAt s k) {c : ConstraintPtr} {tc : TClass}
    (hc : unquals c.name = some tc) : (refine unquals fuel s c).Meets
      (fun p => p.2 = (c.subst θ, false) ∧ StandsFor p.1 root θ ∧ ∀ k, ¬ visitedAt p.1 k) False := by
  induction fuel generalizing s c tc with
  | zero => exact trivial
  | succ fuel ih =>
    rw [refine, Outcome.bind_def]
    apply (update_meets h hmarks fuel c).bind
    rintro ⟨s₁, c₁⟩ ⟨rfl, h₁, hmarks₁⟩
    dsimp only
    rw [show unquals (c.subst θ).name = some tc from hc]
    dsimp only
    split_ifs with harity
    · exact ⟨rfl, h₁, hmarks₁⟩
    · rw [Outcome.bind_def]
      refine Outcome.Meets.bind (refineRequired_meets (fun req hreq s hs hmarks => ?_) h₁ hmarks₁) ?_
      · obtain ⟨tc', htc'⟩ := hknown _ _ hc req hreq
        have hreq' := ih hs hmarks (c := ⟨req.name, instantiates (c.subst θ).arguments req.arguments⟩) htc'
        exact hreq'.mono (fun p hp => ⟨congrArg Prod.snd hp.1, hp.2⟩) id
      rintro ⟨s₂, r⟩ ⟨rfl, h₂, hmarks₂⟩
      exact ⟨rfl, h₂, hmarks₂⟩

/-- Constraints that are refined one after the other without an update are the images of what they were. -/
lemma refineEach_meets (hknown : ∀ name tc, unquals name = some tc → ∀ c ∈ tc.reqs, ∃ tc', unquals c.name = some tc')
    (fuel : ℕ) (h : StandsFor s root θ) (hmarks : ∀ k, ¬ visitedAt s k) {cs : List ConstraintPtr}
    (hcs : ∀ c ∈ cs, ∃ tc, unquals c.name = some tc) : (Outcome.foldOver (fun p c => do
      let (s, c, r) ← refine unquals fuel p.1 c
      return (s, p.2.1 ++ [c], p.2.2 || r)) (s, ([], false)) cs).Meets
      (fun p => p.2 = (cs.map (ConstraintSet.Constraint.subst θ), false) ∧ StandsFor p.1 root θ ∧
        ∀ k, ¬ visitedAt p.1 k) False := by
  apply Outcome.Meets.foldOver (fun done (p : MonoTypeUnifier × List ConstraintPtr × Bool) =>
    p.2 = (done.map (ConstraintSet.Constraint.subst θ), false) ∧ StandsFor p.1 root θ ∧ ∀ k, ¬ visitedAt p.1 k)
    ⟨rfl, h, hmarks⟩
  rintro done c ⟨s, cs', r⟩ hc ⟨heq, hs, hmarks⟩
  cases heq
  obtain ⟨tc, htc⟩ := hcs c hc
  rw [Outcome.bind_def]
  apply (refine_meets hknown fuel hs hmarks htc).bind
  rintro ⟨s', c', r⟩ ⟨heq, hs', hmarks'⟩
  cases heq
  refine ⟨?_, hs', hmarks'⟩
  rw [List.map_append, List.map_singleton]
  rfl

lemma refineAll_meets (hknown : ∀ name tc, unquals name = some tc → ∀ c ∈ tc.reqs, ∃ tc', unquals c.name = some tc')
    (fuel n : ℕ) (h : StandsFor s root θ) (hmarks : ∀ k, ¬ visitedAt s k) {cs : List ConstraintPtr}
    (hcs : ∀ c ∈ cs, ∃ tc, unquals c.name = some tc) : (refineAll unquals fuel n s cs).Meets
      (fun p => p.2 = cs.map (ConstraintSet.Constraint.subst θ) ∧ StandsFor p.1 root θ ∧ ∀ k, ¬ visitedAt p.1 k)
      False := by
  cases n with
  | zero => exact trivial
  | succ n =>
    rw [refineAll, Outcome.bind_def]
    apply (refineEach_meets hknown fuel h hmarks hcs).bind
    rintro ⟨s', cs', r⟩ ⟨heq, hs', hmarks'⟩
    cases heq
    exact ⟨rfl, hs', hmarks'⟩

end TEnv

/-! ### Heads -/

/-- What a substitution makes of a type has no variables and `TGen`s iff the type has no `TGen`s and what is put in
place of its variables has neither. -/
lemma isMonoSingular_subst_iff {σ : Bytes → TyTerm} {t : TyTerm} : isMonoSingular (t.subst σ) = true ↔
    Within {c | c.isTGen = false} t ∧ ∀ x ∈ typeVars t, isMonoSingular (σ x) = true := by
  induction t using Term.induct with
  | var x =>
    rw [subst_var, typeVars, List.forall_mem_singleton]
    exact (and_iff_right (Within.var x)).symm
  | app c ts ih =>
    rw [subst_app, isMonoSingular, Bool.and_eq_true, Bool.not_eq_true', areMonoSingular_iff, List.forall_mem_map]
    constructor
    · rintro ⟨hc, hts⟩
      refine ⟨.app hc fun t ht => ((ih t ht).mp (hts t ht)).1, fun x hx => ?_⟩
      rw [typeVars, mem_typesVars] at hx
      obtain ⟨t, ht, hx⟩ := hx
      exact ((ih t ht).mp (hts t ht)).2 x hx
    · rintro ⟨hwithin, hvars⟩
      cases hwithin with
      | app hc hts =>
        refine ⟨hc, fun t ht => (ih t ht).mpr ⟨hts t ht, fun x hx => hvars x ?_⟩⟩
        rw [typeVars, mem_typesVars]
        exact ⟨t, ht, hx⟩

lemma map_subst_of_closed {ts : List TyTerm} (hts : ∀ t ∈ ts, isMonoSingular t = true) (σ : Bytes → TyTerm) :
    ts.map (Term.subst σ) = ts := by
  rw [List.map_congr_left fun t ht => subst_of_isMonoSingular (hts t ht) σ, List.map_id']

/-- Substitutions that make the same of types are the same on their variables. -/
lemma eq_of_map_subst_eq {σ τ : Bytes → TyTerm} {ts : List TyTerm}
    (h : ts.map (Term.subst σ) = ts.map (Term.subst τ)) : ∀ x ∈ typesVars ts, σ x = τ x := by
  intro x hx
  obtain ⟨t, ht, hx⟩ := mem_typesVars.mp hx
  exact eq_of_subst_eq (List.map_eq_map_iff.mp h t ht) x hx

lemma map_subst_congr {σ τ : Bytes → TyTerm} {ts : List TyTerm} (h : ∀ x ∈ typesVars ts, σ x = τ x) :
    ts.map (Term.subst σ) = ts.map (Term.subst τ) :=
  List.map_congr_left fun _ ht => subst_congr fun x hx => h x (mem_typesVars.mpr ⟨_, ht, hx⟩)

namespace TCInstanceFn

variable {f : TCInstanceFn} {uidCtr : ℕ} {σ τ ρ : Bytes → TyTerm} {tys : List TyTerm}

/-- The requirements are determined by the types. -/
lemma WellFormed.reqs_eq (hf : f.WellFormed uidCtr) (h : f.itys.map (Term.subst σ) = f.itys.map (Term.subst τ)) :
    f.reqs.map (ConstraintSet.Constraint.subst σ) = f.reqs.map (ConstraintSet.Constraint.subst τ) := by
  refine List.map_congr_left fun c hc => ?_
  rw [ConstraintSet.Constraint.subst, ConstraintSet.Constraint.subst,
    map_subst_congr fun x hx => eq_of_map_subst_eq h x (hf.covered c hc x hx)]

lemma WellFormed.closed_reqs (hf : f.WellFormed uidCtr) (htys : ∀ t ∈ tys, isMonoSingular t = true)
    (h : f.itys.map (Term.subst σ) = tys) :
    ∀ c ∈ f.reqs.map (ConstraintSet.Constraint.subst σ), ∀ t ∈ c.arguments, isMonoSingular t = true := by
  have hvars : ∀ x ∈ typesVars f.itys, isMonoSingular (σ x) = true := by
    intro x hx
    obtain ⟨t, ht, hx⟩ := mem_typesVars.mp hx
    refine (isMonoSingular_subst_iff.mp (htys (t.subst σ) ?_)).2 x hx
    rw [← h]
    exact List.mem_map_of_mem ht
  intro c hc t ht
  obtain ⟨d, hd, rfl⟩ := List.mem_map.mp hc
  obtain ⟨u, hu, rfl⟩ := List.mem_map.mp ht
  refine isMonoSingular_subst_iff.mpr ⟨hf.tgens u ?_, fun x hx => ?_⟩
  · exact List.mem_append_right _ (List.mem_flatMap.mpr ⟨d, hd, hu⟩)
  · exact hvars x (hf.covered d hd x (mem_typesVars.mpr ⟨u, hu, hx⟩))

lemma map_subst_comp (ρ θ : Bytes → TyTerm) (ts : List TyTerm) :
    (ts.map (Term.subst ρ)).map (Term.subst θ) = ts.map (Term.subst fun x => (ρ x).subst θ) := by
  rw [List.map_map]
  exact List.map_congr_left fun t _ => subst_subst ρ θ t

/-- A head with other variables has the same instances. -/
lemma Renames.exists_solves_iff (hρ : Renames f ρ) (htys : ∀ t ∈ tys, isMonoSingular t = true)
    (hlen : f.itys.length = tys.length) :
    (∃ σ, Solves σ ((f.itys.map (Term.subst ρ)).zip tys)) ↔ TypeMap.IsInstance f.itys tys := by
  have hlen' : (f.itys.map (Term.subst ρ)).length = tys.length := by rw [List.length_map, hlen]
  rw [TypeMap.solvable_iff_isInstance hlen' htys]
  constructor
  · rintro ⟨σ, hσ⟩
    exact ⟨fun x => (ρ x).subst σ, by rw [← hσ, ← map_subst_comp]⟩
  · rintro ⟨σ, hσ⟩
    classical
    refine ⟨fun y => if h : ∃ x ∈ f.names, ρ x = var y then σ h.choose else var y, ?_⟩
    rw [map_subst_comp, ← hσ]
    refine map_subst_congr fun x hx => ?_
    have hx : x ∈ f.names := List.mem_union_iff.mpr (.inl hx)
    obtain ⟨y, hy⟩ := hρ.to_var x hx
    have hex : ∃ x ∈ f.names, ρ x = var y := ⟨x, hx, hy⟩
    rw [hy, subst_var, dif_pos hex]
    exact congrArg σ (hρ.inj _ hex.choose_spec.1 x hx (hex.choose_spec.2.trans hy.symm))

/-- It can be unified with no more types. -/
lemma joinable_of_map_subst (htys : ∀ t ∈ tys, isMonoSingular t = true)
    (h : Joinable TyCtor.cname ((f.itys.map (Term.subst ρ)).zip tys)) : Joinable TyCtor.cname (f.itys.zip tys) := by
  apply Joinable.of_map_subst (θ := ρ)
  have hzip : (f.itys.zip tys).map (fun p => (p.1.subst ρ, p.2.subst ρ)) = (f.itys.map (Term.subst ρ)).zip tys := by
    conv_rhs => rw [← map_subst_of_closed htys ρ, List.zip_map]
    rfl
  rwa [hzip]

end TCInstanceFn

end Hobbes.Lang
