import Hobbes.Lang.UnifierSubstitutes

/-!
# What a unifier binds

A unifier stands for a substitution. When a type without variables is unified with another type, variables are bound to
parts of it one after the other, and those that have been bound before a clash is found stay bound.
-/

namespace Hobbes.Lang

open Core Term EquivalenceMapping Forest

/-! ### Unification that is given up -/

namespace MonoTypeUnifier

/-- `f` for each pair, as long as it does not throw. -/
def unifyPairs (f : MonoTypeUnifier → TyTerm → TyTerm → Outcome (MonoTypeUnifier × Bool)) :
    MonoTypeUnifier → List (TyTerm × TyTerm) → Outcome (MonoTypeUnifier × Bool)
  | s, [] => .returns (s, true)
  | s, p :: ps => (f s p.1 p.2).bind fun q => if q.2 then unifyPairs f q.1 ps else .returns (q.1, false)

/-- `unify` with the state that it leaves behind, and whether it returns or throws. -/
def unifyUpTo : ℕ → MonoTypeUnifier → TyTerm → TyTerm → Outcome (MonoTypeUnifier × Bool)
  | 0, _, _, _ => .runsOn
  | fuel + 1, s, lhs, rhs => do
    let (m, l) ← Outcome.ofOption (findNode liftUType s.m lhs)
    let (m, r) ← Outcome.ofOption (findNode liftUType m rhs)
    let lhsv ← Outcome.ofOption (nodeType m l)
    let rhsv ← Outcome.ofOption (nodeType m r)
    let s := { s with m := m }
    if lhsv = rhsv then return (s, true)
    else
      match lhsv, rhsv with
      | .app c ss, .app d ts =>
        if ss.length ≠ ts.length ∨ c.cname ≠ d.cname then return (s, false)
        else do
          let (s, ok) ← unifyPairs (unifyUpTo fuel) s (ss.zip ts)
          if ok then do
            let s ← joinNodeTypes s l r
            return (s, true)
          else return (s, false)
      | _, _ => do
        let s ← joinNodeTypes { s with bcount := s.bcount + 1 } l r
        return (s, true)

end MonoTypeUnifier

open MonoTypeUnifier

lemma unifyPairs_eq {f : MonoTypeUnifier → TyTerm → TyTerm → Outcome (MonoTypeUnifier × Bool)}
    {g : MonoTypeUnifier → TyTerm → TyTerm → Outcome MonoTypeUnifier}
    (h : ∀ s l r, g s l r = (f s l r).bind fun q => if q.2 then .returns q.1 else .throws) (s : MonoTypeUnifier)
    (ps : List (TyTerm × TyTerm)) :
    Outcome.foldOver (fun s p => g s p.1 p.2) s ps =
      (unifyPairs f s ps).bind fun q => if q.2 then .returns q.1 else .throws := by
  induction ps generalizing s with
  | nil => rfl
  | cons p ps ih =>
    rw [Outcome.foldOver, unifyPairs, h]
    cases f s p.1 p.2 with
    | runsOn => rfl
    | throws => rfl
    | returns q =>
      obtain ⟨s', ok⟩ := q
      cases ok with
      | true => exact ih s'
      | false => rfl

/-- They are one function. -/
lemma unify_eq (fuel : ℕ) (s : MonoTypeUnifier) (l r : TyTerm) :
    s.unify fuel l r = (s.unifyUpTo fuel l r).bind fun q => if q.2 then .returns q.1 else .throws := by
  induction fuel generalizing s l r with
  | zero => rfl
  | succ fuel ih =>
    simp only [unify, unifyUpTo, Outcome.bind_def, Outcome.pure_def]
    cases findNode liftUType s.m l with
    | none => rfl
    | some p =>
      obtain ⟨m, l⟩ := p
      simp only [Outcome.ofOption_some, Outcome.returns_bind]
      cases findNode liftUType m r with
      | none => rfl
      | some p =>
        obtain ⟨m, r⟩ := p
        simp only [Outcome.ofOption_some, Outcome.returns_bind]
        cases nodeType m l with
        | none => rfl
        | some lhsv =>
          cases nodeType m r with
          | none => rfl
          | some rhsv =>
            simp only [Outcome.ofOption_some, Outcome.returns_bind]
            by_cases heq : lhsv = rhsv
            · simp only [if_pos heq]
              rfl
            · simp only [if_neg heq]
              have hjoin (s : MonoTypeUnifier) : joinNodeTypes s l r =
                  ((joinNodeTypes s l r).bind fun s => .returns (s, true)).bind fun q =>
                    if q.2 then .returns q.1 else .throws := by
                cases joinNodeTypes s l r <;> rfl
              cases lhsv with
              | var x => exact hjoin _
              | app c ss =>
                cases rhsv with
                | var x => exact hjoin _
                | app d ts =>
                  dsimp only
                  split_ifs with hclash
                  · rfl
                  · rw [unifyPairs_eq ih]
                    cases unifyPairs (unifyUpTo fuel) { s with m := m } (ss.zip ts) with
                    | runsOn => rfl
                    | throws => rfl
                    | returns q =>
                      obtain ⟨s', ok⟩ := q
                      cases ok with
                      | true => exact hjoin s'
                      | false => rfl

/-! ### The substitution that a unifier stands for -/

/-- Types that have been made nodes stay so, and no marks are left. -/
structure Keeps (s s' : MonoTypeUnifier) : Prop where
  mem : ∀ k ∈ s.m.nodes, k ∈ s'.m.nodes
  unmarked : (∀ k, ¬ visitedAt s k) → ∀ k, ¬ visitedAt s' k

lemma Keeps.refl (s : MonoTypeUnifier) : Keeps s s := ⟨fun _ hk => hk, id⟩

lemma Keeps.trans {s s' s'' : MonoTypeUnifier} (h : Keeps s s') (h' : Keeps s' s'') : Keeps s s'' :=
  ⟨fun k hk => h'.mem k (h.mem k hk), fun hs => h'.unmarked (h.unmarked hs)⟩

lemma Substitutes.keeps {s s' : MonoTypeUnifier} (h : Substitutes s s') : Keeps s s' :=
  ⟨h.mem, fun hs k hk => hs k (h.visited k hk)⟩

/-- What is kept for a class stands for it, and a variable only if the class has no constructors. What has been found
for a class since the last binding is what `θ` makes of it. -/
structure StandsFor (s : MonoTypeUnifier) (root : TyTerm → TyTerm) (θ : Bytes → TyTerm) : Prop where
  rooted : Rooted s.m.nodes root
  idem : Absorbs θ θ
  sound : ∀ a b, root a = root b → a.subst θ = b.subst θ
  value : ∀ k, (typeAt s k).subst θ = k.subst θ
  unbound : ∀ k x, typeAt s (root k) = var x → root (var x) = root k ∧ θ x = var x
  stamp : ∀ k, (valueAt liftUType s.m.nodes k).donebc ≤ s.bcount
  cached : ∀ k, Resolved s (root k) → typeAt s (root k) = k.subst θ

namespace StandsFor

variable {s : MonoTypeUnifier} {root : TyTerm → TyTerm} {θ θ' : Bytes → TyTerm}

lemma empty : StandsFor MonoTypeUnifier.empty (fun k => k) var where
  rooted := Rooted.empty
  idem x := subst_var _ x
  sound _ _ hab := congrArg (Term.subst var) hab
  value _ := rfl
  unbound _ _ hk := ⟨hk.symm, rfl⟩
  stamp _ := Nat.le_refl 0
  cached _ hk := absurd hk.1 (Nat.lt_irrefl 0)

lemma root_root (h : StandsFor s root θ) (k : TyTerm) : root (root k) = root k := h.rooted.forest.root_root k

lemma subst_root (h : StandsFor s root θ) (k : TyTerm) : (root k).subst θ = k.subst θ := h.sound _ _ (h.root_root k)

lemma value_root (h : StandsFor s root θ) (k : TyTerm) : (typeAt s (root k)).subst θ = k.subst θ :=
  (h.value _).trans (h.subst_root k)

/-- A class of a type with a constructor keeps one. -/
lemma exists_app (h : StandsFor s root θ) {k : TyTerm} {c : TyCtor} {ts : List TyTerm} (hk : k.subst θ = app c ts) :
    ∃ us, typeAt s (root k) = app c us ∧ us.map (Term.subst θ) = ts := by
  have hvalue := (h.value_root k).trans hk
  cases htype : typeAt s (root k) with
  | var x =>
    rw [htype, subst_var, (h.unbound k x htype).2] at hvalue
    cases hvalue
  | app d us =>
    rw [htype, subst_app] at hvalue
    obtain ⟨rfl, rfl⟩ := Term.app.inj hvalue
    exact ⟨us, rfl, rfl⟩

/-- A class that stands for a variable keeps it. -/
lemma exists_var (h : StandsFor s root θ) {k : TyTerm} {x : Bytes} (hk : typeAt s (root k) = var x) :
    k.subst θ = var x := by
  rw [← h.value_root, hk, subst_var, (h.unbound k x hk).2]

/-- Only types, roots and what has been done matter. -/
lemma congr (h : StandsFor s root θ) {s' : MonoTypeUnifier} (hrooted : Rooted s'.m.nodes root)
    (htype : ∀ k, typeAt s' k = typeAt s k)
    (hdone : ∀ k, (valueAt liftUType s'.m.nodes k).donebc = (valueAt liftUType s.m.nodes k).donebc)
    (hb : s'.bcount = s.bcount) : StandsFor s' root θ where
  rooted := hrooted
  idem := h.idem
  sound := h.sound
  value k := by
    rw [htype]
    exact h.value k
  unbound k x hk := by
    rw [htype] at hk
    exact h.unbound k x hk
  stamp k := by
    rw [hdone, hb]
    exact h.stamp k
  cached k hk := by
    rw [Resolved, hdone, hb] at hk
    rw [htype]
    exact h.cached k hk

lemma findNode (h : StandsFor s root θ) (k : TyTerm) : ∃ m,
    EquivalenceMapping.findNode liftUType s.m k = some (m, root k) ∧ StandsFor { s with m := m } root θ ∧
      root k ∈ m.nodes ∧ Keeps s { s with m := m } := by
  obtain ⟨m, n, hfind, -, hrooted, hmem, hn, hvalue⟩ := h.rooted.findNode_values liftUType k
  exact ⟨m, hfind, h.congr hrooted (fun a => congrArg UTypeRec.ty (hvalue a))
    (fun a => congrArg UTypeRec.donebc (hvalue a)) rfl, mem_of_lookup hn, fun a ha => (hmem a).mpr (.inr ha),
    fun hs a ha => hs a (by rwa [visitedAt, ← hvalue])⟩

/-- Two roots are linked, where `θ'` makes their types equal. It says more than `θ` only if there is a new binding. -/
lemma link (h : StandsFor s root θ) {m : EquivalenceMapping TyTerm UTypeRec} {a b : TyTerm} (ha : root a = a)
    (hb : root b = b) (hrooted : Rooted m.nodes (relink root a b))
    (hvalue : valueAt liftUType m.nodes b = valueAt liftUType s.m.nodes b + valueAt liftUType s.m.nodes a)
    (hother : ∀ k ≠ b, valueAt liftUType m.nodes k = valueAt liftUType s.m.nodes k) {bc : ℕ}
    (hbc : s.bcount < bc ∨ bc = s.bcount ∧ θ' = θ) (hidem : Absorbs θ' θ') (habsorbs : Absorbs θ' θ)
    (hab : a.subst θ' = b.subst θ')
    (hnew : ∀ x, typeAt ⟨m, bc⟩ b = var x → (root (var x) = a ∨ root (var x) = b) ∧ θ' x = var x)
    (hold : ∀ k x, root k ≠ a → root k ≠ b → typeAt s (root k) = var x → θ' x = var x) :
    StandsFor ⟨m, bc⟩ (relink root a b) θ' := by
  have hto : ∀ k, root k = a ∨ root k = b → relink root a b k = b := by
    intro k hk
    unfold relink
    split_ifs with hka
    · rfl
    · exact hk.resolve_left hka
  have hkeep : ∀ k, root k ≠ a → relink root a b k = root k := fun k hk => if_neg hk
  have hsound : ∀ u v, root u = root v → u.subst θ' = v.subst θ' := fun u v huv => by
    rw [← habsorbs.subst u, ← habsorbs.subst v, h.sound u v huv]
  have hkept : ∀ k, (typeAt s k).subst θ' = k.subst θ' := fun k => by
    rw [← habsorbs.subst, h.value, habsorbs.subst]
  have hstamp : ∀ k, (valueAt liftUType m.nodes k).donebc ≤ s.bcount := by
    intro k
    rcases eq_or_ne k b with rfl | hk
    · rw [hvalue]
      rcases moreDefinedType_eq (valueAt liftUType s.m.nodes k) (valueAt liftUType s.m.nodes a) with heq | heq
      · rw [heq]
        exact h.stamp k
      · rw [heq]
        exact h.stamp a
    · rw [hother k hk]
      exact h.stamp k
  refine ⟨hrooted, hidem, ?_, ?_, ?_, ?_, ?_⟩
  · intro u v huv
    rcases (relink_eq_iff root).mp huv with huv | ⟨hu, hv⟩ | ⟨hu, hv⟩
    · exact hsound u v huv
    · exact ((hsound u a (hu.trans ha.symm)).trans hab).trans (hsound b v (hb.trans hv.symm))
    · exact ((hsound u b (hu.trans hb.symm)).trans hab.symm).trans (hsound a v (ha.trans hv.symm))
  · intro k
    rcases eq_or_ne k b with rfl | hk
    · rw [typeAt, hvalue]
      rcases moreDefinedType_eq (valueAt liftUType s.m.nodes k) (valueAt liftUType s.m.nodes a) with heq | heq
      · rw [heq]
        exact hkept k
      · rw [heq, ← hab]
        exact hkept a
    · rw [typeAt, hother k hk]
      exact hkept k
  · intro k x hk
    by_cases hmerged : root k = a ∨ root k = b
    · rw [hto k hmerged] at hk ⊢
      obtain ⟨hx, hθ⟩ := hnew x hk
      exact ⟨hto _ hx, hθ⟩
    · obtain ⟨hka, hkb⟩ := not_or.mp hmerged
      rw [hkeep k hka] at hk ⊢
      rw [typeAt, hother _ hkb] at hk
      obtain ⟨hx, -⟩ := h.unbound k x hk
      exact ⟨(hkeep _ (hx ▸ hka)).trans hx, hold k x hka hkb hk⟩
  · exact fun k => (hstamp k).trans (hbc.elim Nat.le_of_lt fun h => h.1.ge)
  · intro k hk
    rcases hbc with hlt | ⟨rfl, rfl⟩
    · have hdone := hstamp (relink root a b k)
      rw [hk.2] at hdone
      exact absurd hdone (Nat.not_le.mpr hlt)
    · by_cases hmerged : root k = a ∨ root k = b
      · have hkab : k.subst θ' = b.subst θ' :=
          hmerged.elim (fun hka => (hsound k a (hka.trans ha.symm)).trans hab) fun hkb => hsound k b (hkb.trans hb.symm)
        rw [hto k hmerged] at hk ⊢
        rw [hkab, typeAt, hvalue]
        rw [Resolved, hvalue] at hk
        rcases moreDefinedType_eq (valueAt liftUType s.m.nodes b) (valueAt liftUType s.m.nodes a) with heq | heq
        · rw [heq] at hk ⊢
          have hcached := h.cached b (hb.symm ▸ hk)
          rwa [hb] at hcached
        · rw [heq] at hk ⊢
          have hcached := h.cached a (ha.symm ▸ hk)
          rw [ha, hab] at hcached
          exact hcached
      · obtain ⟨hka, hkb⟩ := not_or.mp hmerged
        rw [hkeep k hka] at hk ⊢
        rw [typeAt, hother _ hkb]
        rw [Resolved, hother _ hkb] at hk
        exact h.cached k hk

/-- Types that stand for one unbound variable are in one class. -/
lemma root_eq_of_var (h : StandsFor s root θ) {k k' : TyTerm} {x : Bytes} (hk : k.subst θ = var x)
    (hk' : k'.subst θ = var x) : root k = root k' := by
  have hclass : ∀ k : TyTerm, k.subst θ = var x → root (var x) = root k := by
    intro k hk
    cases htype : typeAt s (root k) with
    | app c ts =>
      have hvalue := h.value_root k
      rw [htype, hk, subst_app] at hvalue
      cases hvalue
    | var y =>
      have hy := h.exists_var htype
      rw [hk] at hy
      cases hy
      exact (h.unbound k x htype).1
  exact (hclass k hk).symm.trans (hclass k' hk')

/-- Two nodes are joined, where `θ'` makes their types equal and leaves the least variable. -/
lemma joinNodeTypes_spec (h : StandsFor s root θ) (hl : l ∈ s.m.nodes) (hr : r ∈ s.m.nodes) (bc : ℕ)
    (hbc : s.bcount < bc ∧ l.subst θ ≠ r.subst θ ∨ bc = s.bcount ∧ θ' = θ) (hidem : Absorbs θ' θ')
    (habsorbs : Absorbs θ' θ) (hlr : l.subst θ' = r.subst θ')
    (hnew : ∀ x y z, l.subst θ = var x → r.subst θ = var y → (z = x ∧ x ≤ y ∨ z = y ∧ y ≤ x) → θ' z = var z)
    (hold : ∀ x, θ x = var x → var x ≠ l.subst θ → var x ≠ r.subst θ → θ' x = var x) :
    ∃ m root', joinNodeTypes { s with bcount := bc } l r = .returns ⟨m, bc⟩ ∧ StandsFor ⟨m, bc⟩ root' θ' ∧
      Keeps s ⟨m, bc⟩ := by
  obtain ⟨m, root', hjoin, hrooted, hmem, hsame, hlink⟩ :=
    h.rooted.join_spec liftUType (typeAt s l) (typeAt s r)
  refine ⟨m, root', ?_, ?_, hmem, ?_⟩
  · simp only [joinNodeTypes, nodeType_eq hl, nodeType_eq hr, hjoin, Outcome.bind_def, Outcome.ofOption_some,
      Outcome.returns_bind]
    rfl
  · by_cases hroot : root (typeAt s l) = root (typeAt s r)
    · obtain ⟨rfl, hvalue⟩ := hsame hroot
      have heq : l.subst θ = r.subst θ := by
        rw [← h.value l, ← h.value r]
        exact h.sound _ _ hroot
      obtain ⟨rfl, rfl⟩ := hbc.resolve_left fun hlt => hlt.2 heq
      exact h.congr hrooted (fun a => congrArg UTypeRec.ty (hvalue a))
        (fun a => congrArg UTypeRec.donebc (hvalue a)) rfl
    · obtain ⟨a, b, hends, rfl, hvalue, hother⟩ := hlink hroot
      have hkeep : root a = a ∧ root b = b := by
        rcases hends with ⟨rfl, rfl⟩ | ⟨rfl, rfl⟩
        · exact ⟨h.root_root _, h.root_root _⟩
        · exact ⟨h.root_root _, h.root_root _⟩
      have hsubst : ∀ k, (root (typeAt s k)).subst θ' = k.subst θ' := fun k => by
        rw [← habsorbs.subst, h.subst_root, h.value, habsorbs.subst]
      have hkept : ∀ k x, typeAt s (root (typeAt s k)) = var x → k.subst θ = var x := fun k x hk =>
        (h.value k).symm.trans (h.exists_var hk)
      refine h.link hkeep.1 hkeep.2 hrooted hvalue hother (hbc.imp And.left id) hidem habsorbs ?_ ?_ ?_
      · rcases hends with ⟨rfl, rfl⟩ | ⟨rfl, rfl⟩
        · rw [hsubst, hsubst, hlr]
        · rw [hsubst, hsubst, hlr]
      · intro z hz
        rw [typeAt, hvalue] at hz
        obtain ⟨x, y, hx, hy, hleast⟩ := moreDefinedType_var hz
        have hclass : root (var z) = a ∨ root (var z) = b := by
          rcases hleast with ⟨rfl, -⟩ | ⟨rfl, -⟩
          · have hb : typeAt s (root b) = var z := by rw [hkeep.2]; exact hx
            exact .inr ((h.unbound b z hb).1.trans hkeep.2)
          · have ha : typeAt s (root a) = var z := by rw [hkeep.1]; exact hy
            exact .inl ((h.unbound a z ha).1.trans hkeep.1)
        refine ⟨hclass, ?_⟩
        rcases hends with ⟨rfl, rfl⟩ | ⟨rfl, rfl⟩
        · exact hnew y x z (hkept l y hy) (hkept r x hx) hleast.symm
        · exact hnew x y z (hkept l x hx) (hkept r y hy) hleast
      · intro k x hka hkb hk
        have hnot : ∀ t : TyTerm, var x = t.subst θ → root k = root (typeAt s t) := fun t ht =>
          h.root_eq_of_var (h.exists_var hk) ((h.value t).trans ht.symm)
        refine hold x (h.unbound k x hk).2 (fun hx => ?_) fun hx => ?_
        · rcases hends with ⟨rfl, rfl⟩ | ⟨rfl, rfl⟩
          · exact hka (hnot l hx)
          · exact hkb (hnot l hx)
        · rcases hends with ⟨rfl, rfl⟩ | ⟨rfl, rfl⟩
          · exact hkb (hnot r hx)
          · exact hka (hnot r hx)
  · intro hs k hk
    by_cases hroot : root (typeAt s l) = root (typeAt s r)
    · exact hs k (by rwa [visitedAt, ← (hsame hroot).2])
    · obtain ⟨a, b, -, -, hvalue, hother⟩ := hlink hroot
      rcases eq_or_ne k b with rfl | hne
      · rw [visitedAt, hvalue] at hk
        rcases moreDefinedType_eq (valueAt liftUType s.m.nodes k) (valueAt liftUType s.m.nodes a) with heq | heq
        · exact hs k (by rwa [heq] at hk)
        · exact hs a (by rwa [heq] at hk)
      · exact hs k (by rwa [visitedAt, ← hother k hne])

/-- What unification does after the types' nodes have been found. -/
lemma unifyUpTo_eq (h : StandsFor s root θ) (l r : TyTerm) : ∃ t, StandsFor t root θ ∧ t.bcount = s.bcount ∧
    Keeps s t ∧ root l ∈ t.m.nodes ∧ root r ∈ t.m.nodes ∧
    ∀ fuel, unifyUpTo (fuel + 1) s l r =
      if typeAt t (root l) = typeAt t (root r) then .returns (t, true)
      else
        match typeAt t (root l), typeAt t (root r) with
        | .app c ss, .app d ts =>
          if ss.length ≠ ts.length ∨ c.cname ≠ d.cname then .returns (t, false)
          else (unifyPairs (unifyUpTo fuel) t (ss.zip ts)).bind fun q =>
            if q.2 then (joinNodeTypes q.1 (root l) (root r)).bind fun s => .returns (s, true)
            else .returns (q.1, false)
        | _, _ => (joinNodeTypes { t with bcount := t.bcount + 1 } (root l) (root r)).bind fun s =>
          .returns (s, true) := by
  obtain ⟨ml, hfindl, hl, hmeml, hkeepsl⟩ := h.findNode l
  obtain ⟨mr, hfindr, hr, hmemr, hkeepsr⟩ := hl.findNode r
  have hmeml' : root l ∈ mr.nodes := hkeepsr.mem _ hmeml
  refine ⟨{ s with m := mr }, hr, rfl, hkeepsl.trans hkeepsr, hmeml', hmemr, fun fuel => ?_⟩
  simp only [unifyUpTo, Outcome.bind_def, Outcome.pure_def, hfindl, hfindr, Outcome.ofOption_some,
    Outcome.returns_bind, nodeType_eq (s := { s with m := mr }) hmeml',
    nodeType_eq (s := { s with m := mr }) hmemr]

end StandsFor

/-! ### Unification with types without variables -/

mutual

/-- A variable of the second type is met before a constructor that differs from the first type's. -/
def meetsVar : TyTerm → TyTerm → Bool
  | _, .var _ => true
  | .var _, .app _ _ => false
  | .app c rs, .app d ts => if rs.length ≠ ts.length ∨ c.cname ≠ d.cname then false else meetsVars rs ts

def meetsVars : List TyTerm → List TyTerm → Bool
  | r :: rs, t :: ts => meetsVar r t || decide (r = t) && meetsVars rs ts
  | _, _ => false

end

lemma meetsVars_singleton (r t : TyTerm) : meetsVars [r] [t] = meetsVar r t := by
  rw [meetsVars, meetsVars, Bool.and_false, Bool.or_false]
  all_goals simp

lemma areMonoSingular_iff (ts : List TyTerm) : areMonoSingular ts = true ↔ ∀ t ∈ ts, isMonoSingular t = true := by
  induction ts with
  | nil => simp [areMonoSingular]
  | cons t ts ih => rw [areMonoSingular, Bool.and_eq_true, ih, List.forall_mem_cons]

lemma subst_of_isMonoSingular {r : TyTerm} (hr : isMonoSingular r = true) (θ : Bytes → TyTerm) : r.subst θ = r := by
  induction r using Term.induct with
  | var x => cases hr
  | app c rs ih =>
    rw [isMonoSingular, Bool.and_eq_true] at hr
    rw [subst_app, List.map_congr_left fun t ht => ih t ht (mem_isMonoSingular hr.2 ht), List.map_id']

lemma meetsVar_self {r : TyTerm} (hr : isMonoSingular r = true) : meetsVar r r = false := by
  induction r using Term.induct with
  | var x => cases hr
  | app c rs ih =>
    rw [isMonoSingular, Bool.and_eq_true] at hr
    rw [meetsVar, if_neg (by simp)]
    have hrs : ∀ ts : List TyTerm, (∀ t ∈ ts, meetsVar t t = false) → meetsVars ts ts = false := by
      intro ts hts
      induction ts with
      | nil => rfl
      | cons t ts ih =>
        obtain ⟨ht, hts⟩ := List.forall_mem_cons.mp hts
        rw [meetsVars, ht, ih hts, Bool.and_false, Bool.or_false]
    exact hrs rs fun t ht => ih t ht (mem_isMonoSingular hr.2 ht)

/-- From `s` to `s'` variables have been bound, if any, to types with constructors of `A`. -/
structure Binds (A : Set TyCtor) (s : MonoTypeUnifier) (θ : Bytes → TyTerm) (s' : MonoTypeUnifier)
    (θ' : Bytes → TyTerm) : Prop where
  keeps : Keeps s s'
  absorbs : Absorbs θ' θ
  within : ∀ u : TyTerm, Within A (u.subst θ) → Within A (u.subst θ')
  le : s.bcount ≤ s'.bcount
  same : s'.bcount = s.bcount → θ' = θ
  bound : s.bcount < s'.bcount → ∃ x, θ x = var x ∧ ∃ c ts, θ' x = app c ts

lemma Binds.refl (A : Set TyCtor) {s s' : MonoTypeUnifier} {θ : Bytes → TyTerm} (hidem : Absorbs θ θ)
    (hkeeps : Keeps s s') (hb : s'.bcount = s.bcount) : Binds A s θ s' θ where
  keeps := hkeeps
  absorbs := hidem
  within _ hu := hu
  le := hb.ge
  same _ := rfl
  bound hlt := absurd hlt hb.not_gt

lemma Binds.trans {A : Set TyCtor} {s s' s'' : MonoTypeUnifier} {θ θ' θ'' : Bytes → TyTerm} (h : Binds A s θ s' θ')
    (h' : Binds A s' θ' s'' θ'') : Binds A s θ s'' θ'' where
  keeps := h.keeps.trans h'.keeps
  absorbs := h'.absorbs.trans h.absorbs
  within u hu := h'.within u (h.within u hu)
  le := h.le.trans h'.le
  same hb := by
    have hb' : s'.bcount = s.bcount := Nat.le_antisymm (hb ▸ h'.le) h.le
    exact (h'.same (hb.trans hb'.symm)).trans (h.same hb')
  bound hlt := by
    rcases Nat.eq_or_lt_of_le h.le with hb | hb
    · obtain ⟨x, hx, happ⟩ := h'.bound (hb ▸ hlt)
      exact ⟨x, by rwa [← h.same hb.symm], happ⟩
    · obtain ⟨x, hx, c, ts, happ⟩ := h.bound hb
      exact ⟨x, hx, c, ts.map (Term.subst θ''), by rw [← h'.absorbs x, happ, subst_app]⟩

/-- What becomes of the unification of types `ts` with types `rs` that have no variables: all solutions are kept, or
there is none. -/
structure Matched (A : Set TyCtor) (s : MonoTypeUnifier) (θ : Bytes → TyTerm) (rs ts : List TyTerm)
    (s' : MonoTypeUnifier) (ok : Bool) (root' : TyTerm → TyTerm) (θ' : Bytes → TyTerm) : Prop where
  stands : StandsFor s' root' θ'
  binds : Binds A s θ s' θ'
  equal : ok = true → ts.map (Term.subst θ') = rs
  solved : ∀ σ, Absorbs σ θ → ts.map (Term.subst σ) = rs → ok = true ∧ Absorbs σ θ'
  meets : s.bcount < s'.bcount ↔ meetsVars rs (ts.map (Term.subst θ)) = true

namespace Matched

variable {A : Set TyCtor} {s s' : MonoTypeUnifier} {θ θ' : Bytes → TyTerm} {root' : TyTerm → TyTerm}

/-- There is nothing to unify. -/
lemma of_eq (h : StandsFor s' root' θ) (hkeeps : Keeps s s') (hb : s'.bcount = s.bcount)
    {r t : TyTerm} (hr : isMonoSingular r = true) (ht : t.subst θ = r) : Matched A s θ [r] [t] s' true root' θ where
  stands := h
  binds := .refl A h.idem hkeeps hb
  equal _ := congrArg (fun u => [u]) ht
  solved _ hσ _ := ⟨rfl, hσ⟩
  meets := by
    rw [List.map_singleton, meetsVars_singleton, ht, meetsVar_self hr, hb]
    simp

/-- The constructors differ. -/
lemma of_clash (h : StandsFor s' root' θ) (hkeeps : Keeps s s') (hb : s'.bcount = s.bcount)
    {c d : TyCtor} {rs ts : List TyTerm} {t : TyTerm} (ht : t.subst θ = app d ts)
    (hclash : rs.length ≠ ts.length ∨ c.cname ≠ d.cname) :
    Matched A s θ [app c rs] [t] s' false root' θ where
  stands := h
  binds := .refl A h.idem hkeeps hb
  equal := nofun
  solved σ hσ ht' := by
    have heq : t.subst σ = app c rs := List.head_eq_of_cons_eq ht'
    rw [← hσ.subst, ht, subst_app] at heq
    obtain ⟨rfl, rfl⟩ := Term.app.inj heq
    rw [List.length_map] at hclash
    exact absurd hclash (by simp)
  meets := by
    rw [List.map_singleton, meetsVars_singleton, ht, meetsVar, if_pos hclash, hb]
    simp

/-- A variable is bound. -/
lemma of_var {r t : TyTerm} {y : Bytes} (h : StandsFor s' root' (bindVar θ y r)) (hidem : Absorbs θ θ)
    (hkeeps : Keeps s s') (hb : s'.bcount = s.bcount + 1) (hr : isMonoSingular r = true)
    (hA : Within A r) (ht : t.subst θ = var y) : Matched A s θ [r] [t] s' true root' (bindVar θ y r) := by
  have hy : θ y = var y := by
    have hfix := hidem.subst t
    rwa [ht, subst_var] at hfix
  refine ⟨h, ⟨hkeeps, absorbs_bindVar hidem, fun u hu => ?_, by omega, by omega, fun _ => ?_⟩, fun _ => ?_,
    fun σ hσ hσr => ?_, ?_⟩
  · rw [subst_bindVar]
    refine hu.subst fun x => ?_
    rcases eq_or_ne x y with rfl | hne
    · rwa [Function.update_self]
    · rw [Function.update_of_ne hne]
      exact .var x
  · cases r with
    | var x => cases hr
    | app c rs => exact ⟨y, hy, c, rs, bindVar_self hy⟩
  · rw [List.map_singleton, subst_bindVar, ht, subst_var, Function.update_self]
  · have hσt : t.subst σ = r := List.head_eq_of_cons_eq hσr
    rw [← hσ.subst, ht, subst_var] at hσt
    refine ⟨rfl, hσ.bindVar ?_⟩
    rw [hσt, subst_of_isMonoSingular hr]
  · rw [List.map_singleton, meetsVars_singleton, ht, hb, meetsVar]
    simp

lemma cons {r t : TyTerm} {rs ts : List TyTerm} {s₁ : MonoTypeUnifier} {root₁ : TyTerm → TyTerm}
    {θ₁ : Bytes → TyTerm} {ok : Bool} (hidem : Absorbs θ θ) (hrs : ∀ u ∈ r :: rs, isMonoSingular u = true)
    (h : Matched A s θ [r] [t] s₁ true root₁ θ₁) (h' : Matched A s₁ θ₁ rs ts s' ok root' θ') :
    Matched A s θ (r :: rs) (t :: ts) s' ok root' θ' := by
  obtain ⟨hr, hrs⟩ := List.forall_mem_cons.mp hrs
  have ht : t.subst θ₁ = r := List.head_eq_of_cons_eq (h.equal rfl)
  refine ⟨h'.stands, h.binds.trans h'.binds, fun hok => ?_, fun σ hσ hσr => ?_, ?_⟩
  · rw [List.map_cons, h'.equal hok, ← h'.binds.absorbs.subst, ht, subst_of_isMonoSingular hr]
  · rw [List.map_cons, List.cons.injEq] at hσr
    obtain ⟨-, hσ₁⟩ := h.solved σ hσ (congrArg (fun u => [u]) hσr.1)
    exact h'.solved σ hσ₁ hσr.2
  · have hmeets := h.meets
    rw [List.map_singleton, meetsVars_singleton] at hmeets
    rw [List.map_cons, meetsVars]
    rcases Nat.eq_or_lt_of_le h.binds.le with hb | hb
    · have hsame := h.binds.same hb.symm
      subst hsame
      have hno : meetsVar r (t.subst θ₁) = false := by
        rw [← Bool.not_eq_true, ← hmeets]
        exact hb.not_lt
      rw [hno, Bool.false_or, ht, decide_eq_true rfl, Bool.true_and, ← h'.meets, hb]
    · rw [hmeets.mp hb, Bool.true_or]
      simpa using hb.trans_le h'.binds.le

/-- The rest is not looked at after a clash. -/
lemma stop {r t : TyTerm} {rs ts : List TyTerm} (hidem : Absorbs θ θ) (h : Matched A s θ [r] [t] s' false root' θ') :
    Matched A s θ (r :: rs) (t :: ts) s' false root' θ' := by
  have hne : ¬ ∃ σ, Absorbs σ θ ∧ t.subst σ = r := by
    rintro ⟨σ, hσ, ht⟩
    exact Bool.false_ne_true (h.solved σ hσ (congrArg (fun u => [u]) ht)).1
  refine ⟨h.stands, h.binds, nofun, fun σ hσ hσr => ?_, ?_⟩
  · exact absurd ⟨σ, hσ, List.head_eq_of_cons_eq hσr⟩ hne
  · have hmeets := h.meets
    rw [List.map_singleton, meetsVars_singleton] at hmeets
    have hrt : decide (r = t.subst θ) = false := decide_eq_false fun heq => hne ⟨θ, hidem, heq.symm⟩
    rw [List.map_cons, meetsVars, hrt, Bool.false_and, Bool.or_false, hmeets]

/-- The arguments of equal constructors have been unified. -/
lemma app {c : TyCtor} {rs ts : List TyTerm} {t : TyTerm} {s₁ s₂ : MonoTypeUnifier} {ok : Bool}
    {root₂ : TyTerm → TyTerm} (h : Matched A s₁ θ rs ts s₂ ok root₂ θ') (hb : s₁.bcount = s.bcount)
    (hlen : rs.length = ts.length) (ht : t.subst θ = Term.app c (ts.map (Term.subst θ))) (hs' : StandsFor s' root' θ')
    (hkeeps : Keeps s s') (hb' : s'.bcount = s₂.bcount) :
    Matched A s θ [Term.app c rs] [t] s' ok root' θ' := by
  have hargs : ∀ σ, Absorbs σ θ → t.subst σ = Term.app c (ts.map (Term.subst σ)) := fun σ hσ => by
    rw [← hσ.subst, ht, subst_app, List.map_map]
    exact congrArg (Term.app c) (List.map_congr_left fun u _ => hσ.subst u)
  refine ⟨hs', ⟨hkeeps, h.binds.absorbs, h.binds.within, ?_, fun hsame => ?_, fun hlt => ?_⟩, fun hok => ?_,
    fun σ hσ hσr => ?_, ?_⟩
  · rw [hb', ← hb]
    exact h.binds.le
  · exact h.binds.same (by rw [← hb', hsame, hb])
  · exact h.binds.bound (by rwa [hb, ← hb'])
  · rw [List.map_singleton, hargs θ' h.binds.absorbs, h.equal hok]
  · have heq : t.subst σ = Term.app c rs := List.head_eq_of_cons_eq hσr
    rw [hargs σ hσ] at heq
    exact h.solved σ hσ (Term.app.inj heq).2
  · rw [List.map_singleton, meetsVars_singleton, ht, meetsVar, if_neg (by simp [hlen]), ← h.meets, hb, hb']

end Matched

section

variable {A : Set TyCtor}

/-- Unification pair by pair, given what becomes of each pair in any state. -/
lemma unifyPairs_matched {fuel : ℕ} {rs ls ts : List TyTerm} (hrs : ∀ r ∈ rs, isMonoSingular r = true)
    (hlen : rs.length = ts.length)
    (ih : ∀ r ∈ rs, ∀ (s : MonoTypeUnifier) (root : TyTerm → TyTerm) (θ : Bytes → TyTerm) (l t : TyTerm),
      StandsFor s root θ → l.subst θ = r → Within A (t.subst θ) →
      ∃ s' ok root' θ', unifyUpTo fuel s l t = .returns (s', ok) ∧ Matched A s θ [r] [t] s' ok root' θ')
    {s : MonoTypeUnifier} {root : TyTerm → TyTerm} {θ : Bytes → TyTerm} (h : StandsFor s root θ)
    (hls : ls.map (Term.subst θ) = rs) (hts : ∀ t ∈ ts, Within A (t.subst θ)) :
    ∃ s' ok root' θ', unifyPairs (unifyUpTo fuel) s (ls.zip ts) = .returns (s', ok) ∧
      Matched A s θ rs ts s' ok root' θ' := by
  induction rs generalizing ls ts s root θ with
  | nil =>
    obtain rfl := List.eq_nil_of_length_eq_zero hlen.symm
    refine ⟨s, true, root, θ, by rw [List.zip_nil_right]; rfl, h, .refl A h.idem (.refl s) rfl, fun _ => rfl,
      fun σ hσ _ => ⟨rfl, hσ⟩, ?_⟩
    simp [meetsVars]
  | cons r rs ihrs =>
    cases ts with
    | nil => cases hlen
    | cons t ts =>
      cases ls with
      | nil => cases hls
      | cons l ls =>
        rw [List.map_cons, List.cons.injEq] at hls
        obtain ⟨ht, hts⟩ := List.forall_mem_cons.mp hts
        obtain ⟨s₁, ok, root₁, θ₁, hrun, hfirst⟩ := ih r List.mem_cons_self s root θ l t h hls.1 ht
        rw [List.zip_cons_cons, unifyPairs, hrun, Outcome.returns_bind]
        cases ok with
        | false => exact ⟨s₁, false, root₁, θ₁, rfl, hfirst.stop h.idem⟩
        | true =>
          have hls₁ : ls.map (Term.subst θ₁) = rs := by
            rw [← hls.2]
            refine List.map_congr_left fun u hu => ?_
            have hground := hrs _ (List.mem_cons_of_mem r (hls.2 ▸ List.mem_map_of_mem hu))
            rw [← hfirst.binds.absorbs.subst, subst_of_isMonoSingular hground]
          obtain ⟨s', ok, root', θ', hrun', hrest⟩ := ihrs (fun u hu => hrs u (List.mem_cons_of_mem r hu))
            (Nat.succ.inj hlen) (fun u hu => ih u (List.mem_cons_of_mem r hu)) hfirst.stands hls₁
            fun u hu => hfirst.binds.within u (hts u hu)
          exact ⟨s', ok, root', θ', hrun', hfirst.cons h.idem hrs hrest⟩

/-- What becomes of the unification of a type with one that has no variables. -/
lemma unifyUpTo_matched (hA : ∀ c ∈ A, ∀ d ∈ A, c.cname = d.cname → c = d) {r : TyTerm}
    (hr : isMonoSingular r = true) (hrA : Within A r) {fuel : ℕ} (hfuel : r.size ≤ fuel) {s : MonoTypeUnifier}
    {root : TyTerm → TyTerm} {θ : Bytes → TyTerm} (h : StandsFor s root θ) {l t : TyTerm} (hl : l.subst θ = r)
    (ht : Within A (t.subst θ)) :
    ∃ s' ok root' θ', unifyUpTo fuel s l t = .returns (s', ok) ∧ Matched A s θ [r] [t] s' ok root' θ' := by
  induction r using Term.induct generalizing fuel s root θ l t with
  | var x => cases hr
  | app c rs ih =>
    have hsize : 1 ≤ (app c rs : TyTerm).size := by
      rw [Term.size]
      exact Nat.le_add_right _ _
    obtain ⟨fuel, rfl⟩ := Nat.exists_eq_add_one.mpr (hsize.trans hfuel)
    obtain ⟨s₁, hs₁, hb₁, hkeeps₁, hmeml, hmemr, hrun⟩ := h.unifyUpTo_eq l t
    obtain ⟨ls, htypel, hls⟩ := hs₁.exists_app hl
    rw [hrun, htypel]
    by_cases hsame : app c ls = typeAt s₁ (root t)
    · rw [if_pos hsame]
      refine ⟨s₁, true, root, θ, rfl, .of_eq hs₁ hkeeps₁ hb₁ hr ?_⟩
      rw [← hs₁.value_root, ← hsame, subst_app, hls]
    · rw [if_neg hsame]
      have hmono := (Bool.and_eq_true ..).mp (show (!c.isTGen && areMonoSingular rs) = true from by
        rwa [isMonoSingular] at hr)
      cases htyper : typeAt s₁ (root t) with
      | var y =>
        have hty := hs₁.exists_var htyper
        have hy : θ y = var y := (hs₁.unbound t y htyper).2
        have hr' : (app c rs : TyTerm).subst (bindVar θ y (app c rs)) = app c rs := subst_of_isMonoSingular hr _
        have hidem : Absorbs (bindVar θ y (app c rs)) (bindVar θ y (app c rs)) := bindVar_idempotent h.idem hy hr'
        have heql : (root l).subst θ = app c rs := (hs₁.subst_root l).trans hl
        have heqr : (root t).subst θ = var y := (hs₁.subst_root t).trans hty
        obtain ⟨m, root', hjoin, hs', hkeeps'⟩ := hs₁.joinNodeTypes_spec hmeml hmemr (s₁.bcount + 1)
          (.inl ⟨Nat.lt_succ_self _, by
            rw [heql, heqr]
            intro happ
            cases happ⟩) hidem (absorbs_bindVar h.idem)
          (by
            rw [subst_bindVar, subst_bindVar, heql, heqr, subst_of_isMonoSingular hr, subst_var,
              Function.update_self])
          (fun x z w hx => by
            rw [heql] at hx
            cases hx)
          fun x hx _ hne => by
            rw [heqr] at hne
            have hxy : x ≠ y := fun hxy => hne (congrArg var hxy)
            rw [bindVar, hx, subst_var, Function.update_of_ne hxy]
        dsimp only
        rw [hjoin]
        exact ⟨_, true, root', _, rfl, .of_var hs' h.idem (hkeeps₁.trans hkeeps')
          (congrArg (· + 1) hb₁) hr hrA hty⟩
      | app d ts =>
        have htθ : t.subst θ = app d (ts.map (Term.subst θ)) := by
          rw [← hs₁.value_root, htyper, subst_app]
        have hlen : ls.length = rs.length := by rw [← hls, List.length_map]
        dsimp only
        by_cases hclash : ls.length ≠ ts.length ∨ c.cname ≠ d.cname
        · rw [if_pos hclash]
          exact ⟨s₁, false, root, θ, rfl, .of_clash hs₁ hkeeps₁ hb₁ htθ (by rwa [List.length_map, ← hlen])⟩
        · rw [if_neg hclash]
          obtain ⟨hlens, hforms⟩ := not_or.mp hclash
          rw [not_not] at hlens hforms
          rw [htθ] at ht
          cases hrA with
          | app hc hrsA =>
          cases ht with
          | app hd htsA =>
          obtain rfl : c = d := hA c hc d hd hforms
          obtain ⟨s₂, ok, root₂, θ₂, hpairs, hmatched⟩ := unifyPairs_matched (fun u hu => mem_isMonoSingular hmono.2 hu)
            (hlen.symm.trans hlens) (fun u hu s root θ l t hs hl ht =>
              ih u hu (mem_isMonoSingular hmono.2 hu) (hrsA u hu)
                (Nat.le_of_lt_succ ((size_lt hu).trans_le hfuel)) hs hl ht)
            hs₁ hls fun u hu => htsA _ (List.mem_map_of_mem hu)
          have hkeeps₂ := hkeeps₁.trans hmatched.binds.keeps
          rw [hpairs, Outcome.returns_bind]
          cases ok with
          | false =>
            exact ⟨s₂, false, root₂, θ₂, rfl, hmatched.app hb₁ (hlen.symm.trans hlens) htθ hmatched.stands hkeeps₂ rfl⟩
          | true =>
            have hts := hmatched.equal rfl
            have heq : ∀ u : TyTerm, u.subst θ = app c rs → u.subst θ₂ = app c rs := fun u hu => by
              rw [← hmatched.binds.absorbs.subst, hu, subst_of_isMonoSingular hr]
            have heqt : t.subst θ₂ = app c rs := by
              rw [← hmatched.binds.absorbs.subst, htθ, subst_app, ← hts, List.map_map]
              exact congrArg (app c) (List.map_congr_left fun u _ => hmatched.binds.absorbs.subst u)
            have heql := heq (root l) ((hs₁.subst_root l).trans hl)
            have heqr : (root t).subst θ₂ = app c rs := by
              rw [← hmatched.binds.absorbs.subst, hs₁.subst_root t, hmatched.binds.absorbs.subst, heqt]
            obtain ⟨m, root', hjoin, hs', hkeeps'⟩ := hmatched.stands.joinNodeTypes_spec
              (hmatched.binds.keeps.mem _ hmeml) (hmatched.binds.keeps.mem _ hmemr) s₂.bcount
              (.inr ⟨rfl, rfl⟩) hmatched.stands.idem
              hmatched.stands.idem (heql.trans heqr.symm)
              (fun x z w hx => by
                rw [heql] at hx
                cases hx)
              fun x hx _ _ => hx
            dsimp only
            rw [if_pos rfl, hjoin]
            exact ⟨_, true, root', θ₂, rfl, hmatched.app hb₁ (hlen.symm.trans hlens) htθ hs'
              (hkeeps₂.trans hkeeps') rfl⟩

end

/-! ### What is substituted -/

namespace StandsFor

variable {s : MonoTypeUnifier} {root : TyTerm → TyTerm} {θ : Bytes → TyTerm}

/-- What `θ` makes of a type is kept for its class. -/
lemma modify (h : StandsFor s root θ) {t : TyTerm} (ht : root t ∈ s.m.nodes) {f : UTypeRec → UTypeRec}
    (hty : ∀ uty, (f uty).ty = t.subst θ) (hdone : ∀ uty, (f uty).donebc = s.bcount) :
    StandsFor { s with m := modifyNode s.m (root t) f } root θ := by
  obtain ⟨hrooted, -, hvalue, hother⟩ := modifyNode_spec h.rooted ht f
  have htype : typeAt { s with m := modifyNode s.m (root t) f } (root t) = t.subst θ := by
    rw [typeAt, hvalue, hty]
  have hkeep : ∀ k ≠ root t, typeAt { s with m := modifyNode s.m (root t) f } k = typeAt s k := fun k hk => by
    rw [typeAt, hother k hk, typeAt]
  refine ⟨hrooted, h.idem, h.sound, fun k => ?_, fun k x hk => ?_, fun k => ?_, fun k hk => ?_⟩
  · rcases eq_or_ne k (root t) with rfl | hne
    · rw [htype, h.idem.subst, h.subst_root]
    · rw [hkeep k hne, h.value]
  · by_cases hroot : root k = root t
    · rw [hroot, htype] at hk
      have hx := h.idem.subst t
      rw [hk, subst_var] at hx
      exact ⟨(h.root_eq_of_var ((subst_var θ x).trans hx) hk).trans hroot.symm, hx⟩
    · rw [hkeep _ hroot] at hk
      exact h.unbound k x hk
  · rcases eq_or_ne k (root t) with rfl | hne
    · rw [hvalue, hdone]
    · rw [hother k hne]
      exact h.stamp k
  · by_cases hroot : root k = root t
    · rw [hroot, htype, h.sound _ _ hroot]
    · rw [Resolved, hother _ hroot] at hk
      rw [hkeep _ hroot]
      exact h.cached k hk

end StandsFor

lemma substitutes_modifyNode {s : MonoTypeUnifier} {root : TyTerm → TyTerm} (h : Rooted s.m.nodes root) {k : TyTerm}
    (hk : k ∈ s.m.nodes) {f : UTypeRec → UTypeRec} (hf : ∀ uty, (f uty).visited = true → uty.visited = true) :
    Substitutes s { s with m := modifyNode s.m k f } := by
  obtain ⟨-, hmem, hvalue, hother⟩ := modifyNode_spec h hk f
  refine ⟨rfl, hmem, fun a ha => ?_⟩
  rcases eq_or_ne a k with rfl | hne
  · rw [visitedAt, hvalue] at ha
    exact hf _ ha
  · rwa [visitedAt, hother a hne] at ha

/-- From `s` to `s'` types have been substituted, and the marks taken away again. -/
structure TypesRead (s : MonoTypeUnifier) (root : TyTerm → TyTerm) (θ : Bytes → TyTerm) (s' : MonoTypeUnifier) :
    Prop where
  stands : StandsFor s' root θ
  substitutes : Substitutes s s'

/-- The types of a list are substituted one after the other. -/
lemma foldOver_read {root : TyTerm → TyTerm} {θ : Bytes → TyTerm} {fuel : ℕ} {ts : List TyTerm}
    {I : MonoTypeUnifier → Prop} (hI : ∀ s s', I s → Substitutes s s' → I s')
    (ih : ∀ t ∈ ts, ∀ s, I s → StandsFor s root θ →
      ∃ s', s.substitute fuel t = .returns (s', t.subst θ) ∧ TypesRead s root θ s')
    {s : MonoTypeUnifier} (hs : I s) (h : StandsFor s root θ) (us : List TyTerm) :
    ∃ s', Outcome.foldOver (fun p t => (MonoTypeUnifier.substitute fuel p.1 t).bind fun q =>
        .returns (q.1, p.2 ++ [q.2])) (s, us) ts = .returns (s', us ++ ts.map (Term.subst θ)) ∧
      TypesRead s root θ s' := by
  induction ts generalizing s us with
  | nil => exact ⟨s, by rw [List.map_nil, List.append_nil]; rfl, h, .refl s⟩
  | cons t ts ihts =>
    obtain ⟨s₁, hrun, hread⟩ := ih t List.mem_cons_self s hs h
    obtain ⟨s₂, hrun', hread'⟩ := ihts (fun u hu => ih u (List.mem_cons_of_mem t hu)) (hI s s₁ hs hread.substitutes)
      hread.stands (us ++ [t.subst θ])
    rw [List.append_assoc, List.singleton_append] at hrun'
    refine ⟨s₂, ?_, hread'.stands, hread.substitutes.trans hread'.substitutes⟩
    rw [Outcome.foldOver, hrun, Outcome.returns_bind, Outcome.returns_bind, hrun', List.map_cons]

/-- A unifier gives what the substitution makes of a type, where no marks are on the way. -/
lemma StandsFor.substitute_eq {fuel : ℕ} {s : MonoTypeUnifier} {root : TyTerm → TyTerm} {θ : Bytes → TyTerm}
    {t : TyTerm} (h : StandsFor s root θ) (hmarks : ∀ k, visitedAt s k → (t.subst θ).size < (k.subst θ).size)
    (hfuel : (t.subst θ).size ≤ fuel) :
    ∃ s', s.substitute fuel t = .returns (s', t.subst θ) ∧ TypesRead s root θ s' := by
  induction fuel generalizing s t with
  | zero =>
    cases hsize : t.subst θ <;> rw [hsize, Term.size] at hfuel <;> omega
  | succ fuel ih =>
    cases hmono : isMonoSingular t with
    | true =>
      refine ⟨s, ?_, h, .refl s⟩
      rw [MonoTypeUnifier.substitute, if_pos hmono, subst_of_isMonoSingular hmono]
      rfl
    | false =>
      obtain ⟨m, n, hfind, -, hrooted, hmem, hn, hvalue⟩ := h.rooted.findNode_values liftUType t
      have hm : StandsFor { s with m := m } root θ := h.congr hrooted (fun a => congrArg UTypeRec.ty (hvalue a))
        (fun a => congrArg UTypeRec.donebc (hvalue a)) rfl
      have hread : Substitutes s { s with m := m } := ⟨rfl, fun a ha => (hmem a).mpr (.inr ha), fun a ha => by
        rw [visitedAt, ← hvalue]
        exact ha⟩
      have hroot : root t ∈ m.nodes := mem_of_lookup hn
      have hvalue' : n.value = valueAt liftUType m.nodes (root t) := (valueAt_of_lookup liftUType hn).symm
      have hunmarked : ¬ visitedAt { s with m := m } (root t) := fun hvis => by
        have hlt := hmarks _ (hread.visited _ hvis)
        rw [h.subst_root] at hlt
        exact Nat.lt_irrefl _ hlt
      simp only [MonoTypeUnifier.substitute, hmono, Bool.false_eq_true, if_false, hfind, hn, Outcome.bind_def,
        Outcome.pure_def, Outcome.ofOption_some, Outcome.returns_bind, Option.map_some]
      have htype : typeAt { s with m := m } (root t) = n.value.ty := congrArg UTypeRec.ty hvalue'.symm
      by_cases hdone : 0 < n.value.donebc ∧ n.value.donebc = s.bcount
      · rw [if_pos hdone, ← htype, hm.cached t (by rwa [Resolved, ← hvalue'])]
        exact ⟨_, rfl, hm, hread⟩
      · have hvisited : ¬ n.value.visited = true := by
          rwa [hvalue']
        rw [if_neg hdone, if_neg hvisited]
        cases hty : n.value.ty with
        | var v =>
          obtain ⟨m', n', hfind', -, hrooted', hmem', hn', hvalue''⟩ := hm.rooted.findNode_values liftUType (var v)
          have hm' : StandsFor { s with m := m' } root θ := hm.congr hrooted'
            (fun a => congrArg UTypeRec.ty (hvalue'' a)) (fun a => congrArg UTypeRec.donebc (hvalue'' a)) rfl
          have htv : typeAt { s with m := m } (root t) = var v := htype.trans hty
          have hsubst := hm.exists_var htv
          have hfound : n'.value.ty = t.subst θ := by
            have hn'' : typeAt { s with m := m' } (root (var v)) = n'.value.ty :=
              congrArg UTypeRec.ty (valueAt_of_lookup liftUType hn')
            rw [← hn'', typeAt, hvalue'', (hm.unbound t v htv).1, hsubst]
            exact htv
          have hfind'' : find liftUType m (var v) = some (m', n'.value) := by
            rw [find, hfind', Option.bind_some, hn']
            rfl
          have hroot' : root t ∈ m'.nodes := (hmem' _).mpr (.inr hroot)
          have hread' : Substitutes { s with m := m } { s with m := m' } :=
            ⟨rfl, fun a ha => (hmem' a).mpr (.inr ha), fun a ha => by
              rw [visitedAt, ← hvalue'']
              exact ha⟩
          dsimp only
          rw [hfind'', Outcome.ofOption_some, Outcome.returns_bind, hfound]
          exact ⟨_, rfl, hm'.modify hroot' (fun _ => rfl) fun _ => rfl,
            (hread.trans hread').trans (substitutes_modifyNode hm'.rooted hroot' fun _ hvis => hvis)⟩
        | app c ts =>
          have hts : t.subst θ = app c (ts.map (Term.subst θ)) := by
            rw [← hm.value_root, htype, hty, subst_app]
          obtain ⟨hrooted', hmem', hmarked, hother⟩ :=
            modifyNode_spec hrooted hroot fun uty => { uty with visited := true }
          have hkeep : ∀ {α : Type} (f : UTypeRec → α), (∀ uty : UTypeRec, f { uty with visited := true } = f uty) →
              ∀ a, f (valueAt liftUType (modifyNode m (root t) fun uty => { uty with visited := true }).nodes a) =
                f (valueAt liftUType m.nodes a) := by
            intro α f hf a
            rcases eq_or_ne a (root t) with rfl | ha
            · rw [hmarked, hf]
            · rw [hother a ha]
          have hmark : StandsFor { s with m := modifyNode m (root t) fun uty => { uty with visited := true } } root θ :=
            hm.congr hrooted' (hkeep UTypeRec.ty fun _ => rfl) (hkeep UTypeRec.donebc fun _ => rfl) rfl
          have hstart : ∀ k, visitedAt { s with m := modifyNode m (root t) fun uty => { uty with visited := true } } k →
              k = root t ∨ visitedAt s k := fun k hk => by
            rcases eq_or_ne k (root t) with rfl | hne
            · exact .inl rfl
            · rw [visitedAt, hother k hne] at hk
              exact .inr (hread.visited k hk)
          obtain ⟨s', hrun, hread'⟩ := @foldOver_read root θ fuel ts
            (fun s' => ∀ k, visitedAt s' k → k = root t ∨ visitedAt s k)
            (fun s₁ s₂ h₁ h₂ k hk => h₁ k (h₂.visited k hk))
            (fun u hu s₁ hs₁ h₁ => by
              have hsize : (u.subst θ).size < (t.subst θ).size := by
                rw [hts]
                exact size_lt (List.mem_map_of_mem hu)
              refine ih h₁ (fun k hk => ?_) (Nat.le_of_lt_succ (hsize.trans_le hfuel))
              rcases hs₁ k hk with rfl | hk
              · rwa [h.subst_root]
              · exact hsize.trans (hmarks k hk))
            _ hstart hmark []
          have hroot' : root t ∈ s'.m.nodes := hread'.substitutes.mem _ (hmem' _ hroot)
          dsimp only
          rw [hrun, List.nil_append, Outcome.returns_bind, hts]
          refine ⟨_, rfl, hread'.stands.modify hroot' (fun _ => hts.symm) fun _ => rfl, ?_⟩
          refine ⟨hread'.substitutes.bcount, fun k hk => ?_, fun k hk => ?_⟩
          · exact (substitutes_modifyNode hread'.stands.rooted hroot'
              (f := fun _ => ⟨app c (ts.map (Term.subst θ)), false, s'.bcount⟩)
              fun _ hvis => absurd hvis Bool.false_ne_true).mem k
              (hread'.substitutes.mem k (hmem' k (hread.mem k hk)))
          · rcases eq_or_ne k (root t) with rfl | hne
            · obtain ⟨-, -, hlast, -⟩ := modifyNode_spec hread'.stands.rooted hroot'
                fun _ => ⟨app c (ts.map (Term.subst θ)), false, s'.bcount⟩
              rw [visitedAt, hlast] at hk
              cases hk
            · have hvis := (substitutes_modifyNode hread'.stands.rooted hroot'
                (f := fun _ => ⟨app c (ts.map (Term.subst θ)), false, s'.bcount⟩)
                fun _ hvis => absurd hvis Bool.false_ne_true).visited k hk
              exact (hstart k (hread'.substitutes.visited k hvis)).resolve_left hne

/-- Whatever the fuel, nothing else is returned. -/
lemma StandsFor.of_substitute {s s' : MonoTypeUnifier} {root : TyTerm → TyTerm} {θ : Bytes → TyTerm}
    (h : StandsFor s root θ) (hmarks : ∀ k, ¬ visitedAt s k) {fuel : ℕ} {t u : TyTerm}
    (hrun : s.substitute fuel t = .returns (s', u)) : u = t.subst θ ∧ TypesRead s root θ s' := by
  obtain ⟨s'', hrun', hread⟩ :=
    h.substitute_eq (fun k hk => absurd hk (hmarks k)) (Nat.le_max_right fuel (t.subst θ).size)
  have hmore := (substitute_le (Nat.le_max_left fuel (t.subst θ).size) s t).eq (by rw [hrun]; exact nofun)
  rw [hrun, hrun'] at hmore
  obtain ⟨rfl, rfl⟩ := Prod.mk.inj (Outcome.returns.inj hmore)
  exact ⟨rfl, hread⟩

/-! ### Bindings -/

/-- A unifier whose equations have a solution, while no type is substituted into. -/
def Consistent (s : MonoTypeUnifier) : Prop := ∃ root θ, StandsFor s root θ ∧ ∀ k, ¬ visitedAt s k

/-- What `substitute` gives for a type. -/
def Gives (s : MonoTypeUnifier) (t u : TyTerm) : Prop := ∃ fuel s', s.substitute fuel t = .returns (s', u)

lemma StandsFor.gives_iff {s : MonoTypeUnifier} {root : TyTerm → TyTerm} {θ : Bytes → TyTerm} (h : StandsFor s root θ)
    (hmarks : ∀ k, ¬ visitedAt s k) {t u : TyTerm} : Gives s t u ↔ u = t.subst θ := by
  constructor
  · rintro ⟨fuel, s', hs'⟩
    exact (h.of_substitute hmarks hs').1
  · rintro rfl
    obtain ⟨s', hs', -⟩ := h.substitute_eq (fun k hk => absurd hk (hmarks k)) (Nat.le_refl _)
    exact ⟨_, s', hs'⟩

/-- A unifier that stands for `θ`. -/
def Reads (s : MonoTypeUnifier) (θ : Bytes → TyTerm) : Prop := ∀ t u, Gives s t u ↔ u = t.subst θ

lemma StandsFor.reads {s : MonoTypeUnifier} {root : TyTerm → TyTerm} {θ : Bytes → TyTerm} (h : StandsFor s root θ)
    (hmarks : ∀ k, ¬ visitedAt s k) : Reads s θ := fun _ _ => h.gives_iff hmarks

lemma Reads.eq {s : MonoTypeUnifier} {θ θ' : Bytes → TyTerm} (h : Reads s θ) (h' : Reads s θ') : θ = θ' :=
  funext fun x => by
    rw [← subst_var θ, ← subst_var θ']
    exact (h' (var x) _).mp ((h (var x) _).mpr rfl)

/-- Where equations that have a solution have been unified, the unifier stands for what types come to, with the
variables that are kept for their classes. -/
lemma Unified.standsFor {E : Equations TyCtor Bytes} {s : MonoTypeUnifier} {root : TyTerm → TyTerm}
    (h : Unified E s root) (hE : ∀ p ∈ E, root p.1 = root p.2) (hsame : Same E) (hfin : ∀ t, IsFinite E t) :
    StandsFor s root fun x => (resolve hfin (var x)).subst fun z => typeAt s (root (var z)) := by
  have hroot : ∀ {a b}, Equated E a b → root a = root b := h.root_eq_of_equated hE
  have hsubst : ∀ t : TyTerm, t.subst (fun x => (resolve hfin (var x)).subst fun z => typeAt s (root (var z))) =
      (resolve hfin t).subst fun z => typeAt s (root (var z)) := fun t => by
    rw [← subst_subst, subst_resolve hsame]
  have hsound : ∀ a b, root a = root b →
      a.subst (fun x => (resolve hfin (var x)).subst fun z => typeAt s (root (var z))) =
        b.subst fun x => (resolve hfin (var x)).subst fun z => typeAt s (root (var z)) := fun a b hab => by
    rw [hsubst, hsubst, (h.sound a b hab).resolve_eq hfin]
  -- A class without constructors comes to the variable that is kept for it.
  have hvars : ∀ t x, headOf E t = none → Equated E t (var x) →
      (resolve hfin t).subst (fun z => typeAt s (root (var z))) = typeAt s (root t) := by
    intro t x hnone hx
    obtain ⟨y, hy, hty⟩ := equated_varOf hx
    rw [Term.resolve_eq, hnone]
    dsimp only
    rw [hy, subst_var, hroot hty]
  have hkept : ∀ t : TyTerm, root (typeAt s (root t)) = root t := fun t => (h.type_mem _).trans (h.root_root t)
  refine ⟨h.rooted, fun x => ?_, hsound, fun k => hsound _ _ (h.type_mem k), fun k x hk => ?_, fun k => ?_,
    fun k hk => ?_⟩
  · -- Induction over the type that `x` comes to.
    suffices hfix : ∀ t, IsFinite E t → ((resolve hfin t).subst fun z => typeAt s (root (var z))).subst
        (fun x => (resolve hfin (var x)).subst fun z => typeAt s (root (var z))) =
          (resolve hfin t).subst fun z => typeAt s (root (var z)) from hfix (var x) (hfin _)
    intro t ht
    induction ht with
    | intro t _ ih =>
      cases hhead : headOf E t with
      | some p =>
        rw [Term.resolve_eq, hhead]
        dsimp only
        rw [subst_app, subst_app, List.map_map, List.map_map, List.map_map]
        exact congrArg (app p.1) (List.map_congr_left fun u hu => ih u ⟨p.1, p.2, equated_headOf hhead, hu⟩)
      | none =>
        have hnone : ∀ c ts, ¬ Equated E t (app c ts) := fun c ts happ => by
          obtain ⟨p, hp⟩ := exists_headOf happ
          rw [hhead] at hp
          cases hp
        cases t with
        | app c ts => exact absurd (.refl _) (hnone c ts)
        | var x =>
          rw [hvars _ x hhead (.refl _)]
          have htype : Equated E (var x) (typeAt s (root (var x))) := h.sound _ _ (hkept _).symm
          cases hy : typeAt s (root (var x)) with
          | app d us => exact absurd (hy ▸ htype) (hnone d us)
          | var y =>
            rw [hy] at htype
            rw [subst_var, hvars _ y (htype.headOf_eq.symm.trans hhead) (.refl _), ← hroot htype, hy]
  · have hclass : root (var x) = root k := by
      rw [← hk, hkept]
    refine ⟨hclass, ?_⟩
    have hnone : headOf E (var x) = none := by
      cases hhead : headOf E (var x) with
      | none => rfl
      | some p =>
        obtain ⟨d, us, happ⟩ := h.type_app p.1 p.2
        rw [← hroot (equated_headOf hhead), hclass, hk] at happ
        cases happ
    rw [hvars _ x hnone (.refl _), hclass, hk]
  · rw [(h.fresh k).2]
    exact Nat.zero_le _
  · rw [Resolved, (h.fresh _).2] at hk
    exact absurd hk.1 (Nat.lt_irrefl 0)

/-- A unifier is consistent after equations that have a solution have been unified. -/
lemma consistent_of_unifyAll {E : Equations TyCtor Bytes} (hE : ∃ σ, Solves σ E) {fuel : ℕ} {s : MonoTypeUnifier}
    (hrun : Outcome.foldOver (fun s (p : TyTerm × TyTerm) => if p.1 = p.2 then pure s else s.unify fuel p.1 p.2)
      MonoTypeUnifier.empty E = .returns s) : Consistent s := by
  obtain ⟨hsame, hfin⟩ := exists_solves_iff.mp hE
  obtain ⟨root, h, -, hjoined⟩ := (Unified.unifyAll_meets E fuel).of_returns hrun
  refine ⟨root, _, h.standsFor hjoined hsame hfin, fun k hk => ?_⟩
  rw [visitedAt, (h.fresh k).1] at hk
  cases hk

lemma consistent_empty : Consistent MonoTypeUnifier.empty :=
  ⟨fun k => k, var, .empty, fun _ => Bool.false_ne_true⟩

def SameBindings (s s' : MonoTypeUnifier) : Prop := ∀ x u, Gives s (var x) u ↔ Gives s' (var x) u

end Hobbes.Lang
