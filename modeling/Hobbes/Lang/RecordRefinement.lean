import Hobbes.Lang.RecordAppend

/-!
# What becomes of an appended record

When two of the three types are known, the third is found and unified with what the unifier has for it.
-/

namespace Hobbes.Lang

open Core Term MonoTypeUnifier

/-! ### Records that are found -/

/-- There are no variables, and the constructors are among `A`. -/
structure ClosedIn (A : Set TyCtor) (t : TyTerm) : Prop where
  closed : isMonoSingular t = true
  within : Within A t

section

variable {A : Set TyCtor} {sizeOf : TyTerm → Option ℕ} (h : Sizes sizeOf)
  (hA : ∀ c ∈ A, ∀ d ∈ A, c.cname = d.cname → c = d)

lemma ClosedIn.members {ms : RecordMembers} (hms : ClosedIn A (makeRecordType ms)) :
    ∀ m ∈ ms, isMonoSingular m.2 = true ∧ Within A m.2 := fun m hm =>
  ⟨(isMonoSingular_makeRecordType ms).mp hms.closed m hm, within_of_makeRecordType hms.within m hm⟩

include h hA

lemma recordSuffix_eq {ms ns : RecordMembers} (hms : tupleNormalize ms = ms) (hns : tupleNormalize ns = ns)
    (hmsA : ClosedIn A (makeRecordType ms)) (hnsA : ClosedIn A (makeRecordType ns)) {fuel : ℕ}
    (hfuel : (makeRecordType ms).size ≤ fuel) :
    recordSuffix sizeOf fuel (makeRecordType ms) (makeRecordType ns) =
      orThrow (if ms.length ≤ ns.length ∧ ∀ p ∈ ms.zip ns, Like p.1 p.2 then
        some (makeRecordType (ns.drop ms.length)) else none) := by
  have hcheck : checkMembers fuel ms ns = _ := checkMembers_eq hA
    (fun m hm => ⟨(hmsA.members m hm).1, (hmsA.members m hm).2, (size_le_makeRecordType hm).trans hfuel⟩) hnsA.members
  simp only [recordSuffix, h.recordMembers_makeRecordType, hms, hns, orThrow, Outcome.bind_def, Outcome.returns_bind,
    hcheck]
  by_cases hlen : ms.length ≤ ns.length
  · rw [if_neg (not_lt.mpr hlen)]
    by_cases hlike : ∀ p ∈ ms.zip ns, Like p.1 p.2
    · rw [if_pos hlike, if_pos ⟨hlen, hlike⟩]
      rfl
    · rw [if_neg hlike, if_neg fun hboth => hlike hboth.2]
      rfl
  · rw [if_pos (not_le.mp hlen), if_neg fun hboth => hlen hboth.1]

lemma recordPrefix_eq {ms ns : RecordMembers} (hms : tupleNormalize ms = ms) (hns : tupleNormalize ns = ns)
    (hmsA : ClosedIn A (makeRecordType ms)) (hnsA : ClosedIn A (makeRecordType ns)) {fuel : ℕ}
    (hfuel : (makeRecordType ms).size ≤ fuel) :
    recordPrefix sizeOf fuel (makeRecordType ms) (makeRecordType ns) =
      orThrow (if ms.length ≤ ns.length ∧ ∀ p ∈ ms.zip (ns.drop (ns.length - ms.length)), Like p.1 p.2 then
        some (makeRecordType (ns.take (ns.length - ms.length))) else none) := by
  have hcheck : checkMembers fuel ms (ns.drop (ns.length - ms.length)) = _ := checkMembers_eq hA
    (fun m hm => ⟨(hmsA.members m hm).1, (hmsA.members m hm).2, (size_le_makeRecordType hm).trans hfuel⟩)
    fun m hm => hnsA.members m (List.mem_of_mem_drop hm)
  simp only [recordPrefix, h.recordMembers_makeRecordType, hms, hns, orThrow, Outcome.bind_def, Outcome.returns_bind,
    hcheck]
  by_cases hlen : ms.length ≤ ns.length
  · rw [if_neg (not_lt.mpr hlen)]
    by_cases hlike : ∀ p ∈ ms.zip (ns.drop (ns.length - ms.length)), Like p.1 p.2
    · rw [if_pos hlike, if_pos ⟨hlen, hlike⟩]
      rfl
    · rw [if_neg hlike, if_neg fun hboth => hlike hboth.2]
      rfl
  · rw [if_pos (not_le.mp hlen), if_neg fun hboth => hlen hboth.1]

end

/-! ### What refinement is for -/

section

variable (sizeOf : TyTerm → Option ℕ) (s : MonoTypeUnifier) (lhs rhs result : TyTerm)

/-- `l`, `r` and `res` are what a solution of the unifier's equations makes of the three types, and they are records of
which the last one is the other two joined. -/
structure IsInstance (l r res : TyTerm) : Prop where
  solution : ∃ σ : Bytes → TyTerm, (∀ t u, Gives s t u → u.subst σ = t.subst σ) ∧
    lhs.subst σ = l ∧ rhs.subst σ = r ∧ result.subst σ = res
  left : IsRecordType l
  right : IsRecordType r
  whole : IsRecordType res
  joined : joinedRecord sizeOf l r = some res

/-- At least two of the three types are known. -/
def TwoKnown : Prop :=
  isRecordLike sizeOf lhs ∧ isRecordLike sizeOf rhs ∨ isRecordLike sizeOf lhs ∧ isRecordLike sizeOf result ∨
    isRecordLike sizeOf rhs ∧ isRecordLike sizeOf result

/-- The unifier gives three types that are satisfied. -/
def Solved : Prop :=
  ∃ l r res, Gives s lhs l ∧ Gives s rhs r ∧ Gives s result res ∧ satisfied sizeOf l r res = true

/-- What is asked of a refinement that returns `b` and leaves `s'` behind. -/
structure Refines (s' : MonoTypeUnifier) (b : Bool) : Prop where
  solved : (∃ l r res, IsInstance sizeOf s lhs rhs result l r res) → TwoKnown sizeOf lhs rhs result →
    Solved sizeOf s' lhs rhs result
  clean : b = false → SameBindings s s'

/-- `t`, one of the three types, has to be `r` by what is known of the other two. -/
inductive Finds : TyTerm → TyTerm → Prop
  | ofJoined {r : TyTerm} (h : joinedRecord sizeOf lhs rhs = some r) : Finds result r
  | ofSuffix {r : TyTerm} {n : ℕ} (h : ∀ fuel ≥ n, recordSuffix sizeOf fuel lhs result = .returns r) : Finds rhs r
  | ofPrefix {r : TyTerm} {n : ℕ} (h : ∀ fuel ≥ n, recordPrefix sizeOf fuel rhs result = .returns r) : Finds lhs r

/-- When refinement does what is asked of it. A record that is not a tuple, appended to a tuple, loses its labels, and
is not found from the result: unless it is not known at all, nothing may be left to bind. And the record found may
differ from a type that the unifier has for a variable only before the first variable of this type. -/
structure Refinable : Prop where
  labels : isRecordLike sizeOf result → isRecordLike sizeOf lhs ∨ isRecordLike sizeOf rhs →
    ∀ l r res ms ns, IsInstance sizeOf s lhs rhs result l r res → recordMembers sizeOf l = some ms →
      recordMembers sizeOf r = some ns → Mixed ms ns →
        (Gives s lhs l ∧ Gives s rhs r) ∨ ∃ y, Gives s rhs (var y)
  bindings : ∀ x r u, Finds sizeOf lhs rhs result (var x) r → Gives s (var x) u → meetsVar r u = true →
    ∃ ρ : Bytes → TyTerm, u.subst ρ = r

/-- No two constructors that go by one name occur in what is unified. -/
def NoneAlike : Prop :=
  ∃ A : Set TyCtor, (∀ c ∈ A, ∀ d ∈ A, c.cname = d.cname → c = d) ∧
    (∀ t ∈ [lhs, rhs, result], ∀ u, Gives s t u → Within A u) ∧
    ∀ t r, Finds sizeOf lhs rhs result t r → Within A r

end

/-! ### One direction -/

section

variable {A : Set TyCtor} {s s' : MonoTypeUnifier} {root : TyTerm → TyTerm} {θ θ' : Bytes → TyTerm}

lemma StandsFor.sameBindings_iff (h : StandsFor s root θ) (hmarks : ∀ k, ¬ visitedAt s k) {root' : TyTerm → TyTerm}
    (h' : StandsFor s' root' θ') (hmarks' : ∀ k, ¬ visitedAt s' k) : SameBindings s s' ↔ θ' = θ := by
  constructor
  · intro hsame
    refine funext fun x => ?_
    have hx := (hsame x (θ x)).mp ((h.gives_iff hmarks).mpr (subst_var θ x).symm)
    rw [h'.gives_iff hmarks', subst_var] at hx
    exact hx.symm
  · rintro rfl x u
    rw [h.gives_iff hmarks, h'.gives_iff hmarks']

lemma meetsVar_of_closed {t : TyTerm} (ht : isMonoSingular t = true) (r : TyTerm) : meetsVar r t = false := by
  induction t using Term.induct generalizing r with
  | var x => cases ht
  | app d ts ih =>
    rw [isMonoSingular, Bool.and_eq_true] at ht
    have hts : ∀ rs, meetsVars rs ts = false := by
      intro rs
      have hall : ∀ t ∈ ts, ∀ r, meetsVar r t = false := fun t hmem r => ih t hmem (mem_isMonoSingular ht.2 hmem) r
      clear ih ht
      induction rs generalizing ts with
      | nil => cases ts <;> rfl
      | cons r rs ihrs =>
        cases ts with
        | nil => rfl
        | cons t ts =>
          obtain ⟨hfirst, hrest⟩ := List.forall_mem_cons.mp hall
          rw [meetsVars, hfirst, ihrs ts hrest, Bool.and_false, Bool.or_false]
    cases r with
    | var x => rfl
    | app c rs =>
      rw [meetsVar, hts, ite_self]

/-- What becomes of `t` when the record `found`, if there is one, is unified with it. -/
structure Directed (A : Set TyCtor) (s : MonoTypeUnifier) (root : TyTerm → TyTerm) (θ : Bytes → TyTerm)
    (found : Option TyTerm) (t : TyTerm) (s' : MonoTypeUnifier) (ok : Bool) (root' : TyTerm → TyTerm)
    (θ' : Bytes → TyTerm) : Prop where
  stands : StandsFor s' root' θ'
  unmarked : ∀ k, ¬ visitedAt s' k
  ofNone : found = none → ok = false ∧ s' = s ∧ θ' = θ
  ofSome : ∀ r, found = some r → Matched A s θ [r] [t] s' ok root' θ'

lemma exists_direction (hA : ∀ c ∈ A, ∀ d ∈ A, c.cname = d.cname → c = d) (h : StandsFor s root θ)
    (hmarks : ∀ k, ¬ visitedAt s k) (found : Option TyTerm) (hfound : ∀ r, found = some r → ClosedIn A r) {t : TyTerm}
    (ht : Within A (t.subst θ)) {fuel : ℕ} (hfuel : ∀ r, found = some r → r.size ≤ fuel) :
    ∃ s' ok root' θ', direction fuel true (orThrow found) t s = .returns (s', ok) ∧
      Directed A s root θ found t s' ok root' θ' := by
  cases found with
  | none => exact ⟨s, false, root, θ, rfl, h, hmarks, fun _ => ⟨rfl, rfl, rfl⟩, nofun⟩
  | some r =>
    have hr := hfound r rfl
    obtain ⟨s', ok, root', θ', hrun, hmatched⟩ :=
      unifyUpTo_matched hA hr.closed hr.within (hfuel r rfl) h (subst_of_isMonoSingular hr.closed θ) ht
    refine ⟨s', ok, root', θ', hrun, hmatched.stands, hmatched.binds.keeps.unmarked hmarks, nofun, ?_⟩
    rintro _ ⟨⟩
    exact hmatched

namespace Directed

variable {found : Option TyTerm} {t : TyTerm} {ok : Bool} {root' : TyTerm → TyTerm}

/-- A type without variables is not bound. -/
lemma same_of_closed (h : Directed A s root θ found t s' ok root' θ') (ht : isMonoSingular t = true) :
    θ' = θ ∧ s'.bcount = s.bcount := by
  cases found with
  | none =>
    obtain ⟨-, rfl, rfl⟩ := h.ofNone rfl
    exact ⟨rfl, rfl⟩
  | some r =>
    have hmatched := h.ofSome r rfl
    have hmeets := hmatched.meets
    rw [List.map_singleton, meetsVars_singleton, subst_of_isMonoSingular ht, meetsVar_of_closed ht] at hmeets
    have hb : s'.bcount = s.bcount := Nat.le_antisymm (not_lt.mp fun hlt => Bool.false_ne_true (hmeets.mp hlt))
      hmatched.binds.le
    exact ⟨hmatched.binds.same hb, hb⟩

/-- No solution of the unifier's equations makes the types equal, if they are not unified. -/
lemma ok_of_subst (h : StandsFor s root θ) {r : TyTerm} (hmatched : Matched A s θ [r] [t] s' ok root' θ')
    {ρ : Bytes → TyTerm} (hρ : (t.subst θ).subst ρ = r) : ok = true := by
  have habsorbs : Absorbs (fun x => (θ x).subst ρ) θ := fun x => by
    rw [← subst_subst, ← subst_var θ, h.idem.subst, subst_var]
  refine (hmatched.solved _ habsorbs ?_).1
  rw [List.map_singleton, ← subst_subst, hρ]

end Directed

end

/-! ### What refinement does -/

section

variable {A : Set TyCtor} {sizeOf : TyTerm → Option ℕ} {s s' : MonoTypeUnifier} {root root' : TyTerm → TyTerm}
  {θ θ' : Bytes → TyTerm} {lhs rhs result : TyTerm}

lemma StandsFor.solved_iff (h : StandsFor s root θ) (hmarks : ∀ k, ¬ visitedAt s k) :
    Solved sizeOf s lhs rhs result ↔
      satisfied sizeOf (lhs.subst θ) (rhs.subst θ) (result.subst θ) = true := by
  constructor
  · rintro ⟨l, r, res, hl, hr, hres, hsat⟩
    rw [h.gives_iff hmarks] at hl hr hres
    rwa [← hl, ← hr, ← hres]
  · exact fun hsat => ⟨_, _, _, (h.gives_iff hmarks).mpr rfl, (h.gives_iff hmarks).mpr rfl,
      (h.gives_iff hmarks).mpr rfl, hsat⟩

lemma IsInstance.satisfied (hsize : Sizes sizeOf) {l r res : TyTerm} (h : IsInstance sizeOf s lhs rhs result l r res) :
    satisfied sizeOf l r res = true := by
  obtain ⟨ms, -, rfl⟩ := h.left
  obtain ⟨ns, -, rfl⟩ := h.right
  obtain ⟨rs, -, rfl⟩ := h.whole
  simp [Lang.satisfied, hsize.isRecordLike_makeRecordType, h.joined]

/-- An instance is all that the unifier gives, where nothing is left to bind. -/
lemma IsInstance.eq_subst (h : StandsFor s root θ) (hmarks : ∀ k, ¬ visitedAt s k) {x : Bytes}
    (hargs : ∀ t ∈ [lhs, rhs, result], t = var x ∨ isMonoSingular t = true) {l r res : TyTerm}
    (hinst : IsInstance sizeOf s lhs rhs result l r res) (hclosed : isMonoSingular (θ x) = true) :
    lhs.subst θ = l ∧ rhs.subst θ = r ∧ result.subst θ = res := by
  obtain ⟨σ, hσ, rfl, rfl, rfl⟩ := hinst.solution
  have heq : ∀ t ∈ [lhs, rhs, result], t.subst θ = t.subst σ := fun t ht => by
    have hsolves := hσ t _ ((h.gives_iff hmarks).mpr rfl)
    rcases hargs t ht with rfl | ht
    · rw [← hsolves, subst_var, subst_of_isMonoSingular hclosed]
    · rw [subst_of_isMonoSingular ht, subst_of_isMonoSingular ht]
  simp only [List.forall_mem_cons] at heq
  exact ⟨heq.1, heq.2.1, heq.2.2.1⟩

/-- One of the types is a variable, and the others are known. -/
lemma Directed.refines_iff (hsize : Sizes sizeOf) (h : StandsFor s root θ) (hmarks : ∀ k, ¬ visitedAt s k) {x : Bytes}
    (hargs : ∀ t ∈ [lhs, rhs, result], t = var x ∨ isMonoSingular t = true) (htwo : TwoKnown sizeOf lhs rhs result)
    {found : Option TyTerm} {ok : Bool} (hdir : Directed A s root θ found (var x) s' ok root' θ')
    (hfound : ∀ l r res f, IsInstance sizeOf s lhs rhs result l r res → found = some f → ∀ ρ : Bytes → TyTerm,
      ρ x = f → satisfied sizeOf (lhs.subst ρ) (rhs.subst ρ) (result.subst ρ) = true)
    (hopen : ∀ l r res, IsInstance sizeOf s lhs rhs result l r res →
      satisfied sizeOf (lhs.subst θ) (rhs.subst θ) (result.subst θ) = true → isMonoSingular (θ x) = true) :
    Refines sizeOf s lhs rhs result s' (ok && decide (s.bcount ≠ s'.bcount)) ↔
      (∀ l r res, IsInstance sizeOf s lhs rhs result l r res →
        (lhs.subst θ = l ∧ rhs.subst θ = r ∧ result.subst θ = res) ∨
          ∃ f ρ, found = some f ∧ (θ x).subst ρ = f) ∧
      ∀ f, found = some f → meetsVar f (θ x) = true → ∃ ρ : Bytes → TyTerm, (θ x).subst ρ = f := by
  have hgiven : ∀ l r res, IsInstance sizeOf s lhs rhs result l r res → Solved sizeOf s lhs rhs result →
      lhs.subst θ = l ∧ rhs.subst θ = r ∧ result.subst θ = res := fun l r res hinst hsolved =>
    hinst.eq_subst h hmarks hargs (hopen l r res hinst ((h.solved_iff hmarks).mp hsolved))
  have hsolved : ∀ l r res, IsInstance sizeOf s lhs rhs result l r res →
      lhs.subst θ = l ∧ rhs.subst θ = r ∧ result.subst θ = res → Solved sizeOf s lhs rhs result := by
    rintro _ _ _ hinst ⟨rfl, rfl, rfl⟩
    exact (h.solved_iff hmarks).mpr (hinst.satisfied hsize)
  cases found with
  | none =>
    obtain ⟨-, rfl, rfl⟩ := hdir.ofNone rfl
    refine ⟨fun hrefines => ⟨fun l r res hinst => .inl ?_, nofun⟩, fun hcond => ⟨?_, fun _ _ _ => Iff.rfl⟩⟩
    · exact hgiven l r res hinst (hrefines.solved ⟨l, r, res, hinst⟩ htwo)
    · rintro ⟨l, r, res, hinst⟩ -
      exact hsolved l r res hinst ((hcond.1 l r res hinst).resolve_right nofun)
  | some f =>
    have hmatched := hdir.ofSome f rfl
    cases ok with
    | true =>
      have hx : θ' x = f := by
        have hequal := List.head_eq_of_cons_eq (hmatched.equal rfl)
        rwa [subst_var] at hequal
      have hρ : (θ x).subst θ' = f := (hmatched.binds.absorbs x).trans hx
      refine ⟨fun _ => ⟨fun _ _ _ _ => .inr ⟨f, θ', rfl, hρ⟩, ?_⟩, fun _ => ⟨?_, fun hb => ?_⟩⟩
      · rintro _ ⟨⟩ -
        exact ⟨θ', hρ⟩
      · rintro ⟨l, r, res, hinst⟩ -
        exact (hdir.stands.solved_iff hdir.unmarked).mpr (hfound l r res f hinst rfl θ' hx)
      · rw [h.sameBindings_iff hmarks hdir.stands hdir.unmarked]
        simp only [Bool.true_and, decide_eq_false_iff_not, not_not] at hb
        exact hmatched.binds.same hb.symm
    | false =>
      have hno : ∀ ρ : Bytes → TyTerm, (θ x).subst ρ ≠ f := fun ρ hρ =>
        Bool.false_ne_true (Directed.ok_of_subst h hmatched (by rwa [subst_var]))
      have hmeets : s.bcount < s'.bcount ↔ meetsVar f (θ x) = true := by
        have hmeets := hmatched.meets
        rwa [List.map_singleton, meetsVars_singleton, subst_var] at hmeets
      constructor
      · intro hrefines
        have hsame := (h.sameBindings_iff hmarks hdir.stands hdir.unmarked).mp (hrefines.clean rfl)
        subst hsame
        refine ⟨fun l r res hinst => .inl ?_, ?_⟩
        · refine hgiven l r res hinst ((h.solved_iff hmarks).mpr ?_)
          exact (hdir.stands.solved_iff hdir.unmarked).mp (hrefines.solved ⟨l, r, res, hinst⟩ htwo)
        · rintro _ ⟨⟩ hmeet
          obtain ⟨y, hy, c, ts, happ⟩ := hmatched.binds.bound (hmeets.mpr hmeet)
          rw [hy] at happ
          cases happ
      · rintro ⟨hinst', hbind⟩
        have hsame : θ' = θ := by
          refine hmatched.binds.same (Nat.le_antisymm (not_lt.mp fun hlt => ?_) hmatched.binds.le)
          obtain ⟨ρ, hρ⟩ := hbind f rfl (hmeets.mp hlt)
          exact hno ρ hρ
        subst hsame
        refine ⟨?_, fun _ => (h.sameBindings_iff hmarks hdir.stands hdir.unmarked).mpr rfl⟩
        rintro ⟨l, r, res, hinst⟩ -
        have hgives := (hinst' l r res hinst).resolve_right fun ⟨g, ρ, hg, hρ⟩ =>
          hno ρ (hρ.trans (Option.some.inj hg).symm)
        exact (hdir.stands.solved_iff hdir.unmarked).mpr ((h.solved_iff hmarks).mp (hsolved l r res hinst hgives))

lemma finds_iff {t f : TyTerm} : Finds sizeOf lhs rhs result t f ↔
    (t = result ∧ joinedRecord sizeOf lhs rhs = some f) ∨
      (t = rhs ∧ ∃ n, ∀ fuel ≥ n, recordSuffix sizeOf fuel lhs result = .returns f) ∨
        (t = lhs ∧ ∃ n, ∀ fuel ≥ n, recordPrefix sizeOf fuel rhs result = .returns f) := by
  constructor
  · rintro (hf | hf | hf)
    · exact .inl ⟨rfl, hf⟩
    · exact .inr (.inl ⟨rfl, _, hf⟩)
    · exact .inr (.inr ⟨rfl, _, hf⟩)
  · rintro (⟨rfl, hf⟩ | ⟨rfl, n, hf⟩ | ⟨rfl, n, hf⟩)
    · exact .ofJoined hf
    · exact .ofSuffix hf
    · exact .ofPrefix hf

lemma orThrow_eq_returns {α : Type} {o : Option α} {a : α} : orThrow o = .returns a ↔ o = some a := by
  cases o with
  | none => exact ⟨nofun, nofun⟩
  | some b => exact ⟨fun heq => congrArg some (Outcome.returns.inj heq), fun heq => by cases heq; rfl⟩

/-- What is found with enough fuel. -/
lemma exists_fuel_iff {F : ℕ → Outcome TyTerm} {o : Option TyTerm} {n : ℕ} (hF : ∀ fuel ≥ n, F fuel = orThrow o)
    {f : TyTerm} : (∃ n, ∀ fuel ≥ n, F fuel = .returns f) ↔ o = some f := by
  constructor
  · rintro ⟨m, hm⟩
    rw [← orThrow_eq_returns, ← hF (max n m) (Nat.le_max_left n m)]
    exact hm _ (Nat.le_max_right n m)
  · rintro rfl
    exact ⟨n, hF⟩

/-- The condition on bindings, where only `x` may be bound. -/
lemma StandsFor.bindings_iff (h : StandsFor s root θ) (hmarks : ∀ k, ¬ visitedAt s k) {x : Bytes}
    {found : Option TyTerm} (hfinds : ∀ y f, Finds sizeOf lhs rhs result (var y) f ↔ y = x ∧ found = some f) :
    (∀ y r u, Finds sizeOf lhs rhs result (var y) r → Gives s (var y) u → meetsVar r u = true →
        ∃ ρ : Bytes → TyTerm, u.subst ρ = r) ↔
      ∀ f, found = some f → meetsVar f (θ x) = true → ∃ ρ : Bytes → TyTerm, (θ x).subst ρ = f := by
  constructor
  · exact fun hbind f hf => hbind x f (θ x) ((hfinds x f).mpr ⟨rfl, hf⟩) ((h.gives_iff hmarks).mpr (subst_var θ x).symm)
  · intro hbind y r u hr hu
    obtain ⟨rfl, hf⟩ := (hfinds y r).mp hr
    rw [h.gives_iff hmarks, subst_var] at hu
    rw [hu]
    exact hbind r hf

lemma refine_eq {fuel : ℕ} {ok : Bool} (h : tryRefine sizeOf fuel lhs rhs result s = .returns (s', ok)) :
    refine sizeOf fuel lhs rhs result s = .returns (s', ok && decide (s.bcount ≠ s'.bcount)) := by
  rw [refine, h]
  cases ok <;> rfl

@[simp] lemma direction_false (fuel : ℕ) (found : Outcome TyTerm) (t : TyTerm) (s : MonoTypeUnifier) :
    direction fuel false found t s = .returns (s, true) := rfl

end

/-! ### The result is not known -/

section

variable {A : Set TyCtor} {sizeOf : TyTerm → Option ℕ} (hsize : Sizes sizeOf)
  (hA : ∀ c ∈ A, ∀ d ∈ A, c.cname = d.cname → c = d) {s s' : MonoTypeUnifier} {root root' : TyTerm → TyTerm}
  {θ θ' : Bytes → TyTerm} (h : StandsFor s root θ) (hmarks : ∀ k, ¬ visitedAt s k) {x : Bytes}
  {ms ns rs : RecordMembers}

include hsize

lemma satisfiableType_makeRecordType (ms : RecordMembers) : satisfiableType sizeOf (makeRecordType ms) = true := by
  unfold satisfiableType
  split
  · rfl
  · exact hsize.isRecordLike_makeRecordType ms

/-- What is tried is the one direction that has two types. -/
lemma tryRefine_result {fuel : ℕ} :
    tryRefine sizeOf fuel (makeRecordType ms) (makeRecordType ns) (var x) s =
      direction fuel true (orThrow (joinedRecord sizeOf (makeRecordType ms) (makeRecordType ns))) (var x) s := by
  have hvar : satisfiableType sizeOf (var x) = true := rfl
  simp only [tryRefine, satisfiableType_makeRecordType hsize, hvar, Bool.and_self, if_true,
    hsize.isRecordLike_makeRecordType, hsize.isRecordLike_var, Bool.and_false, direction_false]
  rcases direction fuel true (orThrow (joinedRecord sizeOf (makeRecordType ms) (makeRecordType ns))) (var x) s with
    ⟨s', ok⟩ | _ | _
  · cases ok <;> rfl
  · rfl
  · rfl

lemma tryRefine_rhs {fuel : ℕ} :
    tryRefine sizeOf fuel (makeRecordType ms) (var x) (makeRecordType rs) s =
      direction fuel true (recordSuffix sizeOf fuel (makeRecordType ms) (makeRecordType rs)) (var x) s := by
  have hvar : satisfiableType sizeOf (var x) = true := rfl
  simp only [tryRefine, satisfiableType_makeRecordType hsize, hvar, Bool.and_self, if_true,
    hsize.isRecordLike_makeRecordType, hsize.isRecordLike_var, Bool.and_false, Bool.false_and, direction_false,
    Outcome.bind_def, Outcome.returns_bind]
  rcases direction fuel true (recordSuffix sizeOf fuel (makeRecordType ms) (makeRecordType rs)) (var x) s with
    ⟨s', ok⟩ | _ | _
  · cases ok <;> rfl
  · rfl
  · rfl

lemma tryRefine_lhs {fuel : ℕ} :
    tryRefine sizeOf fuel (var x) (makeRecordType ns) (makeRecordType rs) s =
      direction fuel true (recordPrefix sizeOf fuel (makeRecordType ns) (makeRecordType rs)) (var x) s := by
  have hvar : satisfiableType sizeOf (var x) = true := rfl
  simp only [tryRefine, satisfiableType_makeRecordType hsize, hvar, Bool.and_self, if_true,
    hsize.isRecordLike_makeRecordType, hsize.isRecordLike_var, Bool.false_and, direction_false]
  rfl

omit hsize in
/-- What the unifier gives for a variable is an instance of it. -/
lemma StandsFor.subst_of_solution (h : StandsFor s root θ) (hmarks : ∀ k, ¬ visitedAt s k) {σ : Bytes → TyTerm}
    (hσ : ∀ t u, Gives s t u → u.subst σ = t.subst σ) (x : Bytes) : (θ x).subst σ = σ x := by
  have hx := hσ (var x) (θ x) ((h.gives_iff hmarks).mpr (subst_var θ x).symm)
  rwa [subst_var] at hx

/-- Two records that are satisfied with a third. -/
lemma satisfied_iff {l r : TyTerm} : satisfied sizeOf l r (makeRecordType rs) = true ↔
    isRecordLike sizeOf l = true ∧ isRecordLike sizeOf r = true ∧
      joinedRecord sizeOf l r = some (makeRecordType rs) := by
  simp only [satisfied, hsize.isRecordLike_makeRecordType, Bool.and_true, Bool.and_eq_true, decide_eq_true_eq,
    and_assoc]

/-- What is joined to make a closed record is closed. -/
lemma closed_of_joinedRecord (hrs : isMonoSingular (makeRecordType rs) = true) {l r : TyTerm}
    (hjoin : joinedRecord sizeOf l r = some (makeRecordType rs)) {σ : Bytes → TyTerm} :
    (IsRecordType (l.subst σ) → isMonoSingular l = true) ∧ (IsRecordType (r.subst σ) → isMonoSingular r = true) := by
  obtain ⟨ms, hms, hjoin⟩ := Option.bind_eq_some_iff.mp hjoin
  obtain ⟨ns, hns, hjoin⟩ := Option.map_eq_some_iff.mp hjoin
  rw [← hjoin, isMonoSingular_makeRecordType, List.forall_mem_append] at hrs
  exact ⟨fun hl => hsize.closed_of_members hl hms hrs.1, fun hr => hsize.closed_of_members hr hns hrs.2⟩

omit hsize in
/-- The labels of a record type do not change with what is bound. -/
lemma not_tupleLike_of_subst {ns' : RecordMembers} (hns : tupleNormalize ns = ns) (hmixed : Mixed ms ns) {c : TyCtor}
    {us : List TyTerm} {σ ρ : Bytes → TyTerm} (hσ : (app c us).subst σ = makeRecordType ns)
    (hρ : (app c us).subst ρ = makeRecordType ns') : ¬ isTupleLike ns' = true := by
  intro htuple
  have hne' : ns' ≠ [] := by
    rintro rfl
    cases htuple
  rw [subst_app, makeRecordType_of_ne hmixed.2.1, hns] at hσ
  rw [subst_app, makeRecordType_of_ne hne'] at hρ
  have hlabels := (Term.app.inj hσ).1.symm.trans (Term.app.inj hρ).1
  rw [TyCtor.record.injEq] at hlabels
  have htuple' := (isTupleLike_tupleNormalize ns').trans htuple
  have hplain := hmixed.2.2
  generalize tupleNormalize ns' = ns'' at hlabels htuple'
  cases ns with
  | nil => exact hmixed.2.1 rfl
  | cons n ns =>
    cases ns'' with
    | nil => cases hlabels
    | cons n'' ns'' =>
      have hfirst : n.1 = n''.1 := List.head_eq_of_cons_eq hlabels
      rw [isTupleLike] at htuple' hplain
      rw [hfirst, htuple'] at hplain
      cases hplain

include h hmarks hA

/-- The two records are joined. -/
lemma refine_result (hms : tupleNormalize ms = ms) (hns : tupleNormalize ns = ns)
    (hmsA : ClosedIn A (makeRecordType ms)) (hnsA : ClosedIn A (makeRecordType ns)) (hx : Within A (θ x))
    (hfound : ∀ t f, Finds sizeOf (makeRecordType ms) (makeRecordType ns) (var x) t f → Within A f) :
    ∃ n, ∀ fuel ≥ n, ∃ s' b, refine sizeOf fuel (makeRecordType ms) (makeRecordType ns) (var x) s = .returns (s', b) ∧
      (Refines sizeOf s (makeRecordType ms) (makeRecordType ns) (var x) s' b ↔
        Refinable sizeOf s (makeRecordType ms) (makeRecordType ns) (var x)) := by
  have hjoined : joinedRecord sizeOf (makeRecordType ms) (makeRecordType ns) = some (makeRecordType (ms ++ ns)) := by
    rw [hsize.joinedRecord_makeRecordType, hms, hns]
  have hfinds : ∀ y f, Finds sizeOf (makeRecordType ms) (makeRecordType ns) (var x) (var y) f ↔
      y = x ∧ some (makeRecordType (ms ++ ns)) = some f := fun y f => by
    rw [finds_iff, hjoined, Term.var.injEq, or_iff_left]
    rintro (⟨hy, -⟩ | ⟨hy, -⟩)
    · exact makeRecordType_ne_var ns y hy.symm
    · exact makeRecordType_ne_var ms y hy.symm
  have hclosed : isMonoSingular (makeRecordType (ms ++ ns)) = true := by
    rw [isMonoSingular_makeRecordType, List.forall_mem_append]
    exact ⟨fun m hm => (hmsA.members m hm).1, fun m hm => (hnsA.members m hm).1⟩
  refine ⟨(makeRecordType (ms ++ ns)).size, fun fuel hfuel => ?_⟩
  obtain ⟨s', ok, root', θ', hrun, hdir⟩ := exists_direction hA h hmarks (some (makeRecordType (ms ++ ns)))
    (by rintro _ ⟨⟩; exact ⟨hclosed, hfound _ _ ((hfinds x _).mpr ⟨rfl, rfl⟩)⟩) ((subst_var θ x).symm ▸ hx)
    (by rintro _ ⟨⟩; exact hfuel)
  refine ⟨s', ok && decide (s.bcount ≠ s'.bcount), refine_eq (by rw [tryRefine_result hsize, hjoined, hrun]), ?_⟩
  rw [hdir.refines_iff hsize h hmarks (by simp [hmsA.closed, hnsA.closed])
    (.inl ⟨hsize.isRecordLike_makeRecordType ms, hsize.isRecordLike_makeRecordType ns⟩)]
  · constructor
    · rintro ⟨-, hbind⟩
      exact ⟨fun hknown => absurd hknown (by rw [hsize.isRecordLike_var]; exact Bool.false_ne_true),
        (h.bindings_iff hmarks hfinds).mpr hbind⟩
    · refine fun hcond => ⟨fun l r res hinst => .inr ?_, (h.bindings_iff hmarks hfinds).mp hcond.bindings⟩
      obtain ⟨σ, hσ, rfl, rfl, rfl⟩ := hinst.solution
      have hjoin := hinst.joined
      rw [subst_of_isMonoSingular hmsA.closed, subst_of_isMonoSingular hnsA.closed, hjoined, subst_var] at hjoin
      exact ⟨_, σ, rfl, (h.subst_of_solution hmarks hσ x).trans (Option.some.inj hjoin).symm⟩
  · rintro l r res _ - ⟨⟩ ρ hρ
    rw [subst_of_isMonoSingular hmsA.closed, subst_of_isMonoSingular hnsA.closed, subst_var, hρ, satisfied_iff hsize]
    exact ⟨hsize.isRecordLike_makeRecordType ms, hsize.isRecordLike_makeRecordType ns, hjoined⟩
  · rintro l r res - hsat
    rw [subst_of_isMonoSingular hmsA.closed, subst_of_isMonoSingular hnsA.closed, subst_var] at hsat
    simp only [satisfied, hjoined, Bool.and_eq_true, decide_eq_true_eq, Option.some.injEq] at hsat
    rwa [← hsat.2]

/-- The second record is what follows the first one in the result. -/
lemma refine_rhs (hms : tupleNormalize ms = ms) (hrs : tupleNormalize rs = rs) (hmsA : ClosedIn A (makeRecordType ms))
    (hrsA : ClosedIn A (makeRecordType rs)) (hx : Within A (θ x))
    (hfound : ∀ t f, Finds sizeOf (makeRecordType ms) (var x) (makeRecordType rs) t f → Within A f) :
    ∃ n, ∀ fuel ≥ n, ∃ s' b, refine sizeOf fuel (makeRecordType ms) (var x) (makeRecordType rs) s = .returns (s', b) ∧
      (Refines sizeOf s (makeRecordType ms) (var x) (makeRecordType rs) s' b ↔
        Refinable sizeOf s (makeRecordType ms) (var x) (makeRecordType rs)) := by
  generalize hfoundEq : (if ms.length ≤ rs.length ∧ ∀ p ∈ ms.zip rs, Like p.1 p.2 then
        some (makeRecordType (rs.drop ms.length)) else none) = found
  have hsuffix : ∀ fuel ≥ (makeRecordType ms).size,
      recordSuffix sizeOf fuel (makeRecordType ms) (makeRecordType rs) = orThrow found := fun fuel hfuel => by
    rw [recordSuffix_eq hsize hA hms hrs hmsA hrsA hfuel, hfoundEq]
  have hfinds : ∀ y f, Finds sizeOf (makeRecordType ms) (var x) (makeRecordType rs) (var y) f ↔
      y = x ∧ found = some f := fun y f => by
    rw [finds_iff, exists_fuel_iff hsuffix, Term.var.injEq]
    constructor
    · rintro (⟨hy, -⟩ | hf | ⟨hy, -⟩)
      · exact absurd hy.symm (makeRecordType_ne_var rs y)
      · exact hf
      · exact absurd hy.symm (makeRecordType_ne_var ms y)
    · exact fun hf => .inr (.inl hf)
  have hclosed : ∀ f, found = some f → isMonoSingular f = true := by
    rintro f rfl
    split_ifs at hfoundEq
    cases hfoundEq
    rw [isMonoSingular_makeRecordType]
    exact fun m hm => (hrsA.members m (List.mem_of_mem_drop hm)).1
  -- What is found where there is an instance.
  have hinstance : ∀ l r res, IsInstance sizeOf s (makeRecordType ms) (var x) (makeRecordType rs) l r res →
      l = makeRecordType ms ∧ res = makeRecordType rs ∧ ∃ ns ns', tupleNormalize ns = ns ∧ r = makeRecordType ns ∧
        found = some (makeRecordType ns') ∧ tupleNormalize (ms ++ tupleNormalize ns') = rs ∧
        (¬ Mixed ms ns ∧ tupleNormalize ns' = ns ∨ Mixed ms ns ∧ isTupleLike ns' = true) := by
    intro l r res hinst
    obtain ⟨σ, hσ, rfl, hr, rfl⟩ := hinst.solution
    obtain ⟨ns, hns, rfl⟩ := hinst.right
    have hjoin := hinst.joined
    rw [subst_of_isMonoSingular hmsA.closed, subst_of_isMonoSingular hrsA.closed,
      hsize.joinedRecord_makeRecordType, hms, hns] at hjoin
    have hwhole : tupleNormalize (ms ++ ns) = rs := (hsize.makeRecordType_inj (Option.some.inj hjoin)).trans hrs
    obtain ⟨ns', happ, -, hagain, hlabels⟩ := exists_tupleNormalize_append hms hns
    refine ⟨subst_of_isMonoSingular hmsA.closed σ, subst_of_isMonoSingular hrsA.closed σ, ns, ns', hns, rfl, ?_,
      hagain.trans hwhole, hlabels.imp (fun hplain => ⟨hplain.1, hplain.2.2⟩) id⟩
    have hself : ∀ p ∈ ms.zip (ms ++ ns'), Like p.1 p.2 := likes_append ms ns'
    rw [← hfoundEq, ← hwhole, happ, if_pos ⟨by simp, hself⟩, List.drop_left]
  refine ⟨max (makeRecordType ms).size ((found.map Term.size).getD 0), fun fuel hfuel => ?_⟩
  obtain ⟨s', ok, root', θ', hrun, hdir⟩ := exists_direction hA h hmarks found
    (fun f hf => ⟨hclosed f hf, hfound _ _ ((hfinds x f).mpr ⟨rfl, hf⟩)⟩) ((subst_var θ x).symm ▸ hx)
    (by rintro f rfl; exact (Nat.le_max_right _ _).trans hfuel)
  refine ⟨s', ok && decide (s.bcount ≠ s'.bcount), refine_eq ?_, ?_⟩
  · rw [tryRefine_rhs hsize, hsuffix fuel ((Nat.le_max_left _ _).trans hfuel), hrun]
  rw [hdir.refines_iff hsize h hmarks (by simp [hmsA.closed, hrsA.closed])
    (.inr (.inl ⟨hsize.isRecordLike_makeRecordType ms, hsize.isRecordLike_makeRecordType rs⟩))]
  · have hleft : (makeRecordType ms).subst θ = makeRecordType ms := subst_of_isMonoSingular hmsA.closed θ
    have hgives : ∀ t u, Gives s t u ↔ u = t.subst θ := fun t u => h.gives_iff hmarks
    constructor
    · rintro ⟨hcond, hbind⟩
      refine ⟨fun _ _ l r res ms' ns hinst hms' hns' hmixed => ?_, (h.bindings_iff hmarks hfinds).mpr hbind⟩
      obtain ⟨rfl, rfl, ns₀, ns', hns, rfl, hf, -, hlabels⟩ := hinstance l r res hinst
      rw [hsize.recordMembers_makeRecordType, hms, Option.some.injEq] at hms'
      rw [hsize.recordMembers_makeRecordType, hns, Option.some.injEq] at hns'
      subst hms' hns'
      obtain ⟨-, htuple⟩ := hlabels.resolve_left fun hplain => hplain.1 hmixed
      rcases hcond _ _ _ hinst with ⟨hl, hr, -⟩ | ⟨f, ρ, hf', hρ⟩
      · exact .inl ⟨(hgives _ _).mpr hl.symm, (hgives _ _).mpr hr.symm⟩
      · obtain rfl := Option.some.inj (hf.symm.trans hf')
        cases hθ : θ x with
        | var y => exact .inr ⟨y, (hgives _ _).mpr (by rw [subst_var, hθ])⟩
        | app c us =>
          obtain ⟨σ, hσ, -, hr, -⟩ := hinst.solution
          rw [subst_var, ← h.subst_of_solution hmarks hσ, hθ] at hr
          rw [hθ] at hρ
          exact absurd htuple (not_tupleLike_of_subst hns hmixed hr hρ)
    · refine fun hcond => ⟨fun l r res hinst => ?_, (h.bindings_iff hmarks hfinds).mp hcond.bindings⟩
      obtain ⟨rfl, rfl, ns, ns', hns, rfl, hf, -, hlabels⟩ := hinstance l r res hinst
      rcases hlabels with ⟨-, hns'⟩ | ⟨hmixed, -⟩
      · obtain ⟨σ, hσ, -, hr, -⟩ := hinst.solution
        refine .inr ⟨_, σ, hf, ?_⟩
        rw [h.subst_of_solution hmarks hσ, ← subst_var σ, hr]
        exact makeRecordType_congr (hns.trans hns'.symm)
      · rcases hcond.labels (hsize.isRecordLike_makeRecordType rs) (.inl (hsize.isRecordLike_makeRecordType ms)) _ _ _
          ms ns hinst (by rw [hsize.recordMembers_makeRecordType, hms])
          (by rw [hsize.recordMembers_makeRecordType, hns]) hmixed with ⟨-, hr⟩ | ⟨y, hy⟩
        · exact .inl ⟨hleft, ((hgives _ _).mp hr).symm, subst_of_isMonoSingular hrsA.closed θ⟩
        · rw [hgives, subst_var] at hy
          exact .inr ⟨_, fun _ => makeRecordType ns', hf, by rw [← hy, subst_var]⟩
  · intro l r res f hinst hf ρ hρ
    obtain ⟨rfl, rfl, ns, ns', -, -, hf', hagain, -⟩ := hinstance l r res hinst
    rw [subst_of_isMonoSingular hmsA.closed, subst_of_isMonoSingular hrsA.closed, subst_var, hρ, satisfied_iff hsize]
    obtain rfl := Option.some.inj (hf.symm.trans hf')
    refine ⟨hsize.isRecordLike_makeRecordType ms, hsize.isRecordLike_makeRecordType ns', ?_⟩
    rw [hsize.joinedRecord_makeRecordType, hms]
    refine congrArg some (makeRecordType_congr ?_)
    rw [hagain, hrs]
  · intro l r res hinst hsat
    rw [subst_of_isMonoSingular hmsA.closed, subst_of_isMonoSingular hrsA.closed, subst_var,
      satisfied_iff hsize] at hsat
    obtain ⟨σ, hσ, -, hr, -⟩ := hinst.solution
    refine (closed_of_joinedRecord hsize hrsA.closed hsat.2.2).2 (?_ : IsRecordType ((θ x).subst σ))
    rw [h.subst_of_solution hmarks hσ, ← subst_var σ, hr]
    exact hinst.right

/-- The first record is what comes before the second one in the result. -/
lemma refine_lhs (hns : tupleNormalize ns = ns) (hrs : tupleNormalize rs = rs) (hnsA : ClosedIn A (makeRecordType ns))
    (hrsA : ClosedIn A (makeRecordType rs)) (hx : Within A (θ x))
    (hfound : ∀ t f, Finds sizeOf (var x) (makeRecordType ns) (makeRecordType rs) t f → Within A f) :
    ∃ n, ∀ fuel ≥ n, ∃ s' b, refine sizeOf fuel (var x) (makeRecordType ns) (makeRecordType rs) s = .returns (s', b) ∧
      (Refines sizeOf s (var x) (makeRecordType ns) (makeRecordType rs) s' b ↔
        Refinable sizeOf s (var x) (makeRecordType ns) (makeRecordType rs)) := by
  generalize hfoundEq : (if ns.length ≤ rs.length ∧ ∀ p ∈ ns.zip (rs.drop (rs.length - ns.length)), Like p.1 p.2 then
        some (makeRecordType (rs.take (rs.length - ns.length))) else none) = found
  have hprefix : ∀ fuel ≥ (makeRecordType ns).size,
      recordPrefix sizeOf fuel (makeRecordType ns) (makeRecordType rs) = orThrow found := fun fuel hfuel => by
    rw [recordPrefix_eq hsize hA hns hrs hnsA hrsA hfuel, hfoundEq]
  have hfinds : ∀ y f, Finds sizeOf (var x) (makeRecordType ns) (makeRecordType rs) (var y) f ↔
      y = x ∧ found = some f := fun y f => by
    rw [finds_iff, exists_fuel_iff hprefix, Term.var.injEq]
    constructor
    · rintro (⟨hy, -⟩ | ⟨hy, -⟩ | hf)
      · exact absurd hy.symm (makeRecordType_ne_var rs y)
      · exact absurd hy.symm (makeRecordType_ne_var ns y)
      · exact hf
    · exact fun hf => .inr (.inr hf)
  have hclosed : ∀ f, found = some f → isMonoSingular f = true := by
    rintro f rfl
    split_ifs at hfoundEq
    cases hfoundEq
    rw [isMonoSingular_makeRecordType]
    exact fun m hm => (hrsA.members m (List.mem_of_mem_take hm)).1
  -- What is found where there is an instance.
  have hinstance : ∀ l r res, IsInstance sizeOf s (var x) (makeRecordType ns) (makeRecordType rs) l r res →
      r = makeRecordType ns ∧ res = makeRecordType rs ∧ ∃ ms, tupleNormalize ms = ms ∧ l = makeRecordType ms ∧
        tupleNormalize (ms ++ ns) = rs ∧
        (¬ Mixed ms ns ∧ found = some (makeRecordType ms) ∨ Mixed ms ns ∧ found = none) := by
    intro l r res hinst
    obtain ⟨σ, hσ, hl, rfl, rfl⟩ := hinst.solution
    obtain ⟨ms, hms, rfl⟩ := hinst.left
    have hjoin := hinst.joined
    rw [subst_of_isMonoSingular hnsA.closed, subst_of_isMonoSingular hrsA.closed,
      hsize.joinedRecord_makeRecordType, hms, hns] at hjoin
    have hwhole : tupleNormalize (ms ++ ns) = rs := (hsize.makeRecordType_inj (Option.some.inj hjoin)).trans hrs
    obtain ⟨ns', happ, htypes, -, hlabels⟩ := exists_tupleNormalize_append hms hns
    have hlen : ns'.length = ns.length := by
      rw [← List.length_map (f := Prod.snd), htypes, List.length_map]
    refine ⟨subst_of_isMonoSingular hnsA.closed σ, subst_of_isMonoSingular hrsA.closed σ, ms, hms, rfl, hwhole, ?_⟩
    have hrest : (ms ++ ns').length - ns.length = ms.length := by
      rw [List.length_append, hlen, Nat.add_sub_cancel]
    rw [← hfoundEq, ← hwhole, happ, hrest, List.drop_left, List.take_left]
    rcases hlabels with ⟨hplain, hlikes, -⟩ | ⟨hmixed, htuple⟩
    · exact .inl ⟨hplain, if_pos ⟨by rw [List.length_append, hlen]; exact Nat.le_add_left _ _, hlikes⟩⟩
    · exact .inr ⟨hmixed, if_neg fun hboth => not_like_of_mixed hmixed htuple hboth.2⟩
  refine ⟨max (makeRecordType ns).size ((found.map Term.size).getD 0), fun fuel hfuel => ?_⟩
  obtain ⟨s', ok, root', θ', hrun, hdir⟩ := exists_direction hA h hmarks found
    (fun f hf => ⟨hclosed f hf, hfound _ _ ((hfinds x f).mpr ⟨rfl, hf⟩)⟩) ((subst_var θ x).symm ▸ hx)
    (by rintro f rfl; exact (Nat.le_max_right _ _).trans hfuel)
  refine ⟨s', ok && decide (s.bcount ≠ s'.bcount), refine_eq ?_, ?_⟩
  · rw [tryRefine_lhs hsize, hprefix fuel ((Nat.le_max_left _ _).trans hfuel), hrun]
  rw [hdir.refines_iff hsize h hmarks (by simp [hnsA.closed, hrsA.closed])
    (.inr (.inr ⟨hsize.isRecordLike_makeRecordType ns, hsize.isRecordLike_makeRecordType rs⟩))]
  · have hright : (makeRecordType ns).subst θ = makeRecordType ns := subst_of_isMonoSingular hnsA.closed θ
    have hgives : ∀ t u, Gives s t u ↔ u = t.subst θ := fun t u => h.gives_iff hmarks
    constructor
    · rintro ⟨hcond, hbind⟩
      refine ⟨fun _ _ l r res ms ns₀ hinst hms' hns' hmixed => .inl ?_, (h.bindings_iff hmarks hfinds).mpr hbind⟩
      obtain ⟨rfl, rfl, ms₀, hms, rfl, -, hlabels⟩ := hinstance l r res hinst
      rw [hsize.recordMembers_makeRecordType, hms, Option.some.injEq] at hms'
      rw [hsize.recordMembers_makeRecordType, hns, Option.some.injEq] at hns'
      subst hms' hns'
      obtain ⟨-, hnone⟩ := hlabels.resolve_left fun hplain => hplain.1 hmixed
      obtain ⟨hl, hr, -⟩ := (hcond _ _ _ hinst).resolve_right fun ⟨f, _, hf, _⟩ => by
        rw [hnone] at hf
        cases hf
      exact ⟨(hgives _ _).mpr hl.symm, (hgives _ _).mpr hr.symm⟩
    · refine fun hcond => ⟨fun l r res hinst => ?_, (h.bindings_iff hmarks hfinds).mp hcond.bindings⟩
      obtain ⟨rfl, rfl, ms, hms, rfl, -, hlabels⟩ := hinstance l r res hinst
      rcases hlabels with ⟨-, hf⟩ | ⟨hmixed, -⟩
      · obtain ⟨σ, hσ, hl, -, -⟩ := hinst.solution
        refine .inr ⟨_, σ, hf, ?_⟩
        rw [h.subst_of_solution hmarks hσ, ← subst_var σ, hl]
      · rcases hcond.labels (hsize.isRecordLike_makeRecordType rs) (.inr (hsize.isRecordLike_makeRecordType ns)) _ _ _
          ms ns hinst (by rw [hsize.recordMembers_makeRecordType, hms])
          (by rw [hsize.recordMembers_makeRecordType, hns]) hmixed with ⟨hl, -⟩ | ⟨y, hy⟩
        · exact .inl ⟨((hgives _ _).mp hl).symm, hright, subst_of_isMonoSingular hrsA.closed θ⟩
        · rw [hgives, hright] at hy
          exact absurd hy.symm (makeRecordType_ne_var ns y)
  · intro l r res f hinst hf ρ hρ
    obtain ⟨rfl, rfl, ms, hms, -, hwhole, hlabels⟩ := hinstance l r res hinst
    rw [subst_of_isMonoSingular hnsA.closed, subst_of_isMonoSingular hrsA.closed, subst_var, hρ, satisfied_iff hsize]
    rcases hlabels with ⟨-, hf'⟩ | ⟨-, hnone⟩
    · obtain rfl := Option.some.inj (hf.symm.trans hf')
      refine ⟨hsize.isRecordLike_makeRecordType ms, hsize.isRecordLike_makeRecordType ns, ?_⟩
      rw [hsize.joinedRecord_makeRecordType, hms, hns]
      exact congrArg some (makeRecordType_congr (hwhole.trans hrs.symm))
    · rw [hnone] at hf
      cases hf
  · intro l r res hinst hsat
    rw [subst_of_isMonoSingular hnsA.closed, subst_of_isMonoSingular hrsA.closed, subst_var,
      satisfied_iff hsize] at hsat
    obtain ⟨σ, hσ, hl, -, -⟩ := hinst.solution
    refine (closed_of_joinedRecord hsize hrsA.closed hsat.2.2).1 (?_ : IsRecordType ((θ x).subst σ))
    rw [h.subst_of_solution hmarks hσ, ← subst_var σ, hl]
    exact hinst.left

omit hsize in
/-- Nothing is bound where there are no variables. -/
lemma exists_direction_closed (found : Option TyTerm) (hfound : ∀ r, found = some r → ClosedIn A r) {t : TyTerm}
    (ht : ClosedIn A t) (fuel : ℕ) (hfuel : ∀ r, found = some r → r.size ≤ fuel) :
    ∃ s' ok root', direction fuel true (orThrow found) t s = .returns (s', ok) ∧ StandsFor s' root' θ ∧
      (∀ k, ¬ visitedAt s' k) ∧ s'.bcount = s.bcount := by
  obtain ⟨s', ok, root', θ', hrun, hdir⟩ := exists_direction hA h hmarks found hfound
    (by rw [subst_of_isMonoSingular ht.closed]; exact ht.within) hfuel
  obtain ⟨rfl, hb⟩ := hdir.same_of_closed ht.closed
  exact ⟨s', ok, root', hrun, hdir.stands, hdir.unmarked, hb⟩

/-- Three records are compared, and nothing is bound. -/
lemma refine_known (hms : tupleNormalize ms = ms) (hns : tupleNormalize ns = ns) (hrs : tupleNormalize rs = rs)
    (hmsA : ClosedIn A (makeRecordType ms)) (hnsA : ClosedIn A (makeRecordType ns))
    (hrsA : ClosedIn A (makeRecordType rs))
    (hfound : ∀ t f, Finds sizeOf (makeRecordType ms) (makeRecordType ns) (makeRecordType rs) t f → Within A f) :
    ∃ n, ∀ fuel ≥ n, ∃ s' b,
      refine sizeOf fuel (makeRecordType ms) (makeRecordType ns) (makeRecordType rs) s = .returns (s', b) ∧
      (Refines sizeOf s (makeRecordType ms) (makeRecordType ns) (makeRecordType rs) s' b ↔
        Refinable sizeOf s (makeRecordType ms) (makeRecordType ns) (makeRecordType rs)) := by
  have hjoined : joinedRecord sizeOf (makeRecordType ms) (makeRecordType ns) = some (makeRecordType (ms ++ ns)) := by
    rw [hsize.joinedRecord_makeRecordType, hms, hns]
  have hclosed : isMonoSingular (makeRecordType (ms ++ ns)) = true := by
    rw [isMonoSingular_makeRecordType, List.forall_mem_append]
    exact ⟨fun m hm => (hmsA.members m hm).1, fun m hm => (hnsA.members m hm).1⟩
  -- What is found by the second and the third direction.
  obtain ⟨found₂, hfound₂, hsuffix⟩ : ∃ found, (∀ f, found = some f → ClosedIn A f) ∧
      ∀ fuel ≥ (makeRecordType ms).size,
        recordSuffix sizeOf fuel (makeRecordType ms) (makeRecordType rs) = orThrow found := by
    refine ⟨_, ?_, fun fuel hfuel => recordSuffix_eq hsize hA hms hrs hmsA hrsA hfuel⟩
    intro f hf
    refine ⟨?_, hfound _ f (.ofSuffix (n := (makeRecordType ms).size) fun fuel hfuel => ?_)⟩
    · split_ifs at hf
      cases hf
      rw [isMonoSingular_makeRecordType]
      exact fun m hm => (hrsA.members m (List.mem_of_mem_drop hm)).1
    · rw [recordSuffix_eq hsize hA hms hrs hmsA hrsA hfuel, hf]
      rfl
  obtain ⟨found₃, hfound₃, hprefix⟩ : ∃ found, (∀ f, found = some f → ClosedIn A f) ∧
      ∀ fuel ≥ (makeRecordType ns).size,
        recordPrefix sizeOf fuel (makeRecordType ns) (makeRecordType rs) = orThrow found := by
    refine ⟨_, ?_, fun fuel hfuel => recordPrefix_eq hsize hA hns hrs hnsA hrsA hfuel⟩
    intro f hf
    refine ⟨?_, hfound _ f (.ofPrefix (n := (makeRecordType ns).size) fun fuel hfuel => ?_)⟩
    · split_ifs at hf
      cases hf
      rw [isMonoSingular_makeRecordType]
      exact fun m hm => (hrsA.members m (List.mem_of_mem_take hm)).1
    · rw [recordPrefix_eq hsize hA hns hrs hnsA hrsA hfuel, hf]
      rfl
  refine ⟨(makeRecordType ms).size + (makeRecordType ns).size + (makeRecordType (ms ++ ns)).size +
    (found₂.map Term.size).getD 0 + (found₃.map Term.size).getD 0, fun fuel hfuel => ?_⟩
  obtain ⟨s₁, ok₁, root₁, hrun₁, h₁, hmarks₁, hb₁⟩ := exists_direction_closed hA h hmarks
    (some (makeRecordType (ms ++ ns))) (by rintro _ ⟨⟩; exact ⟨hclosed, hfound _ _ (.ofJoined hjoined)⟩) hrsA fuel
    (by rintro _ ⟨⟩; omega)
  obtain ⟨s₂, ok₂, root₂, hrun₂, h₂, hmarks₂, hb₂⟩ := exists_direction_closed hA h₁ hmarks₁ found₂ hfound₂ hnsA
    fuel (by rintro f rfl; simp only [Option.map_some, Option.getD_some] at hfuel; omega)
  obtain ⟨s₃, ok₃, root₃, hrun₃, h₃, hmarks₃, hb₃⟩ := exists_direction_closed hA h₂ hmarks₂ found₃ hfound₃ hmsA
    fuel (by rintro f rfl; simp only [Option.map_some, Option.getD_some] at hfuel; omega)
  obtain ⟨s', ok, root', htry, h', hmarks', hb'⟩ : ∃ s' ok root', tryRefine sizeOf fuel (makeRecordType ms)
      (makeRecordType ns) (makeRecordType rs) s = .returns (s', ok) ∧ StandsFor s' root' θ ∧ (∀ k, ¬ visitedAt s' k) ∧
        s'.bcount = s.bcount := by
    simp only [tryRefine, satisfiableType_makeRecordType hsize, Bool.and_self, if_true,
      hsize.isRecordLike_makeRecordType, hjoined, hrun₁, hsuffix fuel (by omega), hprefix fuel (by omega),
      Outcome.bind_def, Outcome.returns_bind]
    cases ok₁ with
    | false => exact ⟨s₁, false, root₁, rfl, h₁, hmarks₁, hb₁⟩
    | true =>
      simp only [if_true, hrun₂, Outcome.returns_bind]
      cases ok₂ with
      | false => exact ⟨s₂, false, root₂, rfl, h₂, hmarks₂, hb₂.trans hb₁⟩
      | true =>
        simp only [if_true, hrun₃]
        exact ⟨s₃, ok₃, root₃, rfl, h₃, hmarks₃, hb₃.trans (hb₂.trans hb₁)⟩
  have hgives : ∀ t, isMonoSingular t = true → ∀ σ : Bytes → TyTerm, Gives s t (t.subst σ) := fun t ht σ => by
    rw [h.gives_iff hmarks, subst_of_isMonoSingular ht, subst_of_isMonoSingular ht]
  refine ⟨s', _, refine_eq htry, iff_of_true ⟨?_, fun _ => ?_⟩ ⟨?_, ?_⟩⟩
  · rintro ⟨l, r, res, hinst⟩ -
    obtain ⟨σ, -, rfl, rfl, rfl⟩ := hinst.solution
    have hsat := hinst.satisfied hsize
    rw [subst_of_isMonoSingular hmsA.closed, subst_of_isMonoSingular hnsA.closed,
      subst_of_isMonoSingular hrsA.closed] at hsat
    rw [h'.solved_iff hmarks', subst_of_isMonoSingular hmsA.closed, subst_of_isMonoSingular hnsA.closed,
      subst_of_isMonoSingular hrsA.closed]
    exact hsat
  · exact (h.sameBindings_iff hmarks h' hmarks').mpr rfl
  · intro _ _ l r res ms' ns' hinst _ _ _
    obtain ⟨σ, -, rfl, rfl, rfl⟩ := hinst.solution
    exact .inl ⟨hgives _ hmsA.closed σ, hgives _ hnsA.closed σ⟩
  · intro y r u hr
    rcases finds_iff.mp hr with ⟨hy, -⟩ | ⟨hy, -⟩ | ⟨hy, -⟩
    · exact absurd hy.symm (makeRecordType_ne_var rs y)
    · exact absurd hy.symm (makeRecordType_ne_var ns y)
    · exact absurd hy.symm (makeRecordType_ne_var ms y)

end

/-! ### Refinement -/

section

variable {sizeOf : TyTerm → Option ℕ} {s : MonoTypeUnifier} {lhs rhs result : TyTerm}

lemma isRecordLike_of_recordMembers {t : TyTerm} {ms : RecordMembers} (h : recordMembers sizeOf t = some ms) :
    isRecordLike sizeOf t = true := by
  unfold recordMembers at h
  unfold isRecordLike
  split at h
  · rfl
  · by_contra hunit
    rw [if_neg hunit] at h
    cases h

/-- A record is found only from two. -/
lemma Finds.twoKnown {t f : TyTerm} (h : Finds sizeOf lhs rhs result t f) : TwoKnown sizeOf lhs rhs result := by
  have hknown : ∀ t ms, orThrow (recordMembers sizeOf t) = .returns ms → isRecordLike sizeOf t = true :=
    fun _ _ hms => isRecordLike_of_recordMembers (orThrow_eq_returns.mp hms)
  cases h with
  | ofJoined h =>
    obtain ⟨ms, hms, h⟩ := Option.bind_eq_some_iff.mp h
    obtain ⟨ns, hns, -⟩ := Option.map_eq_some_iff.mp h
    exact .inl ⟨isRecordLike_of_recordMembers hms, isRecordLike_of_recordMembers hns⟩
  | @ofSuffix _ n h =>
    obtain ⟨ms, hms, hrest⟩ := Outcome.bind_eq_returns.mp (h n (Nat.le_refl n))
    obtain ⟨rs, hrs, -⟩ := Outcome.bind_eq_returns.mp hrest
    exact .inr (.inl ⟨hknown _ _ hms, hknown _ _ hrs⟩)
  | @ofPrefix _ n h =>
    obtain ⟨ns, hns, hrest⟩ := Outcome.bind_eq_returns.mp (h n (Nat.le_refl n))
    obtain ⟨rs, hrs, -⟩ := Outcome.bind_eq_returns.mp hrest
    exact .inr (.inr ⟨hknown _ _ hns, hknown _ _ hrs⟩)

/-- Nothing is tried where two types are not known. -/
lemma refine_unknown (hargs : ∀ t ∈ [lhs, rhs, result], satisfiableType sizeOf t = true)
    (htwo : ¬ TwoKnown sizeOf lhs rhs result) (fuel : ℕ) :
    ∃ s' b, refine sizeOf fuel lhs rhs result s = .returns (s', b) ∧
      (Refines sizeOf s lhs rhs result s' b ↔ Refinable sizeOf s lhs rhs result) := by
  simp only [List.forall_mem_cons, List.not_mem_nil, false_imp_iff, implies_true, and_true] at hargs
  have hlr : (isRecordLike sizeOf lhs && isRecordLike sizeOf rhs) = false :=
    Bool.eq_false_iff.mpr fun h => htwo (.inl ((Bool.and_eq_true ..).mp h))
  have hlres : (isRecordLike sizeOf lhs && isRecordLike sizeOf result) = false :=
    Bool.eq_false_iff.mpr fun h => htwo (.inr (.inl ((Bool.and_eq_true ..).mp h)))
  have hrres : (isRecordLike sizeOf rhs && isRecordLike sizeOf result) = false :=
    Bool.eq_false_iff.mpr fun h => htwo (.inr (.inr ((Bool.and_eq_true ..).mp h)))
  have htry : tryRefine sizeOf fuel lhs rhs result s = .returns (s, true) := by
    simp only [tryRefine, hargs.1, hargs.2.1, hargs.2.2, Bool.and_self, if_true, hlr, hlres, hrres, direction_false]
    rfl
  refine ⟨s, _, refine_eq htry, iff_of_true ⟨fun _ h => absurd h htwo, fun _ _ _ => Iff.rfl⟩ ⟨?_, ?_⟩⟩
  · intro hres hor
    exact absurd (hor.elim (fun hl => .inr (.inl ⟨hl, hres⟩)) fun hr => .inr (.inr ⟨hr, hres⟩)) htwo
  · exact fun y r u hr => absurd hr.twoKnown htwo

/-- Each of the types is a variable, or a record, tuple or unit type that is closed. -/
def IsArgument (t : TyTerm) : Prop := (∃ x, t = var x) ∨ IsRecordType t ∧ isMonoSingular t = true

end

/-! ### Refinement that is given up -/

/-- The sizes of primitive types. -/
def primTypeSize : TyTerm → Option ℕ
  | .app (.prim nm) [] => (primSize nm).map BitVec.toNat
  | _ => none

lemma sizes_primTypeSize : Sizes primTypeSize := ⟨by decide, fun _ => rfl⟩

def joinedCtors : List TyCtor :=
  [.prim (ascii "int"), .prim (ascii "char"), .record [ascii "a"], .record [ascii "b"], .record [ascii "a", ascii "b"]]

lemma gives_of_substitute {s : MonoTypeUnifier} {fuel : ℕ} {t u : TyTerm}
    (h : (s.substitute fuel t).bind (fun p => .returns p.2) = .returns u) : Gives s t u := by
  obtain ⟨⟨s', u'⟩, hrun, hu⟩ := Outcome.bind_eq_returns.mp h
  cases hu
  exact ⟨fuel, s', hrun⟩

lemma gives_unique {s : MonoTypeUnifier} {t u u' : TyTerm} (h : Gives s t u) (h' : Gives s t u') : u = u' := by
  obtain ⟨n, s₁, hn⟩ := h
  obtain ⟨m, s₂, hm⟩ := h'
  have hmore := (substitute_le (Nat.le_max_left n m) s t).eq (by rw [hn]; exact nofun)
  have hmore' := (substitute_le (Nat.le_max_right n m) s t).eq (by rw [hm]; exact nofun)
  rw [hn] at hmore
  rw [hm, hmore] at hmore'
  exact (Prod.mk.inj (Outcome.returns.inj hmore')).2

end Hobbes.Lang
