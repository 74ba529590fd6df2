import Hobbes.Lang.EquivalenceClasses
import Hobbes.Lang.Unifier

/-!
# What unification joins

While equations are unified, types are only joined that the equations force to be equal, and types of one class have
equal constructors and arguments in common classes. So a type is met that can not be joined only if there is no way to
join the equations, and after all equations have been unified the classes are what the equations force to be equal.
-/

namespace Hobbes.Lang

open Core Term EquivalenceMapping Forest

/-! ### States -/

/-- The type that is kept for a key. -/
def typeAt (s : MonoTypeUnifier) (k : TyTerm) : TyTerm := (valueAt liftUType s.m.nodes k).ty

/-- The state after equations of `E` have been unified as far as possible, with the classes' roots. -/
structure Unified (E : Equations TyCtor Bytes) (s : MonoTypeUnifier) (root : TyTerm → TyTerm) : Prop where
  rooted : Rooted s.m.nodes root
  sound : ∀ a b, root a = root b → Equated E a b
  closed : ∀ c d ss ts, root (app c ss) = root (app d ts) → c.cname = d.cname ∧ ss.length = ts.length ∧
    ∀ (i : ℕ) a b, ss[i]? = some a → ts[i]? = some b → root a = root b
  type_mem : ∀ k, root (typeAt s k) = root k
  /-- A class with a constructor keeps one. -/
  type_app : ∀ c ts, ∃ d us, typeAt s (root (app c ts)) = app d us
  fresh : ∀ k, (valueAt liftUType s.m.nodes k).visited = false ∧ (valueAt liftUType s.m.nodes k).donebc = 0
  /-- As long as no variable has been bound, types have only been joined with types of the same shape. -/
  zero : s.bcount = 0 → ∀ a b, root a = root b → a.size = b.size

/-- Types that have been joined stay so. -/
structure Grows (s : MonoTypeUnifier) (root : TyTerm → TyTerm) (s' : MonoTypeUnifier) (root' : TyTerm → TyTerm) :
    Prop where
  mem : ∀ k ∈ s.m.nodes, k ∈ s'.m.nodes
  root_eq : ∀ a b, root a = root b → root' a = root' b

lemma Grows.refl (s : MonoTypeUnifier) (root : TyTerm → TyTerm) : Grows s root s root := ⟨fun _ h => h, fun _ _ h => h⟩

lemma Grows.trans {s s' s'' : MonoTypeUnifier} {root root' root'' : TyTerm → TyTerm} (h : Grows s root s' root')
    (h' : Grows s' root' s'' root'') : Grows s root s'' root'' :=
  ⟨fun k hk => h'.mem k (h.mem k hk), fun a b hab => h'.root_eq a b (h.root_eq a b hab)⟩

lemma moreDefinedType_eq (u v : UTypeRec) : u + v = u ∨ u + v = v := by
  change moreDefinedType u v = u ∨ moreDefinedType u v = v
  unfold moreDefinedType
  split
  · split_ifs <;> simp
  · exact .inr rfl
  · exact .inl rfl
  · split_ifs <;> simp

/-- A type with a constructor is preferred to a variable. -/
lemma moreDefinedType_app {u v : UTypeRec} (h : (∃ c ts, u.ty = app c ts) ∨ ∃ c ts, v.ty = app c ts) :
    ∃ c ts, (u + v).ty = app c ts := by
  change ∃ c ts, (moreDefinedType u v).ty = app c ts
  unfold moreDefinedType
  split
  · rename_i hu hv
    rcases h with ⟨c, ts, h⟩ | ⟨c, ts, h⟩
    · rw [hu] at h
      cases h
    · rw [hv] at h
      cases h
  · rename_i c ts _ hv
    exact ⟨c, ts, hv⟩
  · rename_i c ts _ hu _
    exact ⟨c, ts, hu⟩
  · rename_i c ss d ts hu hv
    split_ifs
    · exact ⟨c, ss, hu⟩
    · exact ⟨d, ts, hv⟩

/-- The value of two joined classes is a variable only if both had one, and then it is the least. -/
lemma moreDefinedType_var {u v : UTypeRec} {z : Bytes} (h : (u + v).ty = var z) : ∃ x y, u.ty = var x ∧ v.ty = var y ∧
    (z = x ∧ x ≤ y ∨ z = y ∧ y ≤ x) := by
  change (moreDefinedType u v).ty = var z at h
  unfold moreDefinedType at h
  split at h
  · rename_i x y hu hv
    split_ifs at h with hlt
    · rw [hu, var.injEq] at h
      exact ⟨x, y, hu, hv, .inl ⟨h.symm, List.le_of_lt hlt⟩⟩
    · rw [hv, var.injEq] at h
      exact ⟨x, y, hu, hv, .inr ⟨h.symm, List.not_lt.mp hlt⟩⟩
  · rename_i hv
    rw [hv] at h
    cases h
  · rename_i hu _
    rw [hu] at h
    cases h
  · rename_i hu hv
    split_ifs at h
    · rw [hu] at h
      cases h
    · rw [hv] at h
      cases h

lemma nodeType_eq {s : MonoTypeUnifier} {k : TyTerm} (h : k ∈ s.m.nodes) : nodeType s.m k = some (typeAt s k) := by
  obtain ⟨n, hn⟩ := exists_lookup h
  rw [nodeType, typeAt, valueAt_of_lookup liftUType hn, hn]
  rfl

/-! ### Classes of equal types -/

/-- Types have been joined that the equations force to be equal, and what is kept for a class is one of its types. -/
structure Gathered (E : Equations TyCtor Bytes) (s : MonoTypeUnifier) (root : TyTerm → TyTerm) : Prop where
  rooted : Rooted s.m.nodes root
  sound : ∀ a b, root a = root b → Equated E a b
  type_mem : ∀ k, root (typeAt s k) = root k
  type_app : ∀ c ts, ∃ d us, typeAt s (root (app c ts)) = app d us
  fresh : ∀ k, (valueAt liftUType s.m.nodes k).visited = false ∧ (valueAt liftUType s.m.nodes k).donebc = 0
  zero : s.bcount = 0 → ∀ a b, root a = root b → a.size = b.size

namespace Gathered

variable {E : Equations TyCtor Bytes} {s : MonoTypeUnifier} {root : TyTerm → TyTerm}

lemma root_root (h : Gathered E s root) (k : TyTerm) : root (root k) = root k := h.rooted.forest.root_root k

/-- Only the values and the roots matter. -/
lemma congr (h : Gathered E s root) {s' : MonoTypeUnifier} (hrooted : Rooted s'.m.nodes root)
    (hvalue : ∀ k, valueAt liftUType s'.m.nodes k = valueAt liftUType s.m.nodes k)
    (hb : s'.bcount = 0 → s.bcount = 0) : Gathered E s' root where
  rooted := hrooted
  sound := h.sound
  type_mem k := by
    rw [typeAt, hvalue]
    exact h.type_mem k
  type_app c ts := by
    rw [typeAt, hvalue]
    exact h.type_app c ts
  fresh k := by
    rw [hvalue]
    exact h.fresh k
  zero hz := h.zero (hb hz)

/-- Two roots are linked, and the new root's value is that of one of them. -/
lemma link (h : Gathered E s root) {m : EquivalenceMapping TyTerm UTypeRec} {a b : TyTerm} (ha : root a = a)
    (hb : root b = b) (hrooted : Rooted m.nodes (relink root a b))
    (heq : Equated E a b) (hzero : s.bcount = 0 → a.size = b.size)
    (hvalue : valueAt liftUType m.nodes b = valueAt liftUType s.m.nodes b + valueAt liftUType s.m.nodes a)
    (hother : ∀ k ≠ b, valueAt liftUType m.nodes k = valueAt liftUType s.m.nodes k) :
    Gathered E { s with m := m } (relink root a b) := by
  have hto : ∀ k, root k = a ∨ root k = b → relink root a b k = b := by
    intro k hk
    unfold relink
    split_ifs with hka
    · rfl
    · exact hk.resolve_left hka
  have hkeep : ∀ k, root k ≠ a → relink root a b k = root k := fun k hk => if_neg hk
  refine ⟨hrooted, ?_, ?_, ?_, ?_, ?_⟩
  · intro u v huv
    rcases (relink_eq_iff root).mp huv with huv | ⟨hu, hv⟩ | ⟨hu, hv⟩
    · exact h.sound u v huv
    · exact ((h.sound u a (hu.trans ha.symm)).trans heq).trans (h.sound b v (hb.trans hv.symm))
    · exact ((h.sound u b (hu.trans hb.symm)).trans heq.symm).trans (h.sound a v (ha.trans hv.symm))
  · intro k
    rcases eq_or_ne k b with rfl | hk
    · rw [typeAt, hvalue]
      rcases moreDefinedType_eq (valueAt liftUType s.m.nodes k) (valueAt liftUType s.m.nodes a) with heq | heq
      · rw [heq]
        exact (relink_eq_iff root).mpr (.inl (h.type_mem k))
      · rw [heq, hto k (.inr hb)]
        exact hto _ (.inl ((h.type_mem a).trans ha))
    · rw [typeAt, hother k hk]
      exact (relink_eq_iff root).mpr (.inl (h.type_mem k))
  · intro c ts
    obtain ⟨d, us, htype⟩ := h.type_app c ts
    by_cases hc : root (app c ts) = a ∨ root (app c ts) = b
    · rw [hto _ hc, typeAt, hvalue]
      apply moreDefinedType_app
      rcases hc with hc | hc
      · exact .inr ⟨d, us, hc ▸ htype⟩
      · exact .inl ⟨d, us, hc ▸ htype⟩
    · obtain ⟨hca, hcb⟩ := not_or.mp hc
      rw [hkeep _ hca, typeAt, hother _ hcb]
      exact ⟨d, us, htype⟩
  · intro k
    rcases eq_or_ne k b with rfl | hk
    · rw [hvalue]
      rcases moreDefinedType_eq (valueAt liftUType s.m.nodes k) (valueAt liftUType s.m.nodes a) with heq | heq
      · rw [heq]
        exact h.fresh k
      · rw [heq]
        exact h.fresh a
    · rw [hother k hk]
      exact h.fresh k
  · intro hz u v huv
    rcases (relink_eq_iff root).mp huv with huv | ⟨hu, hv⟩ | ⟨hu, hv⟩
    · exact h.zero hz u v huv
    · exact (h.zero hz u a (hu.trans ha.symm)).trans ((hzero hz).trans (h.zero hz b v (hb.trans hv.symm)))
    · exact (h.zero hz u b (hu.trans hb.symm)).trans ((hzero hz).symm.trans (h.zero hz a v (ha.trans hv.symm)))

end Gathered

lemma mem_typesVars_eq_nil {c : TyCtor} {ts : List TyTerm} (h : typeVars (app c ts) = []) {t : TyTerm} (ht : t ∈ ts) :
    typeVars t = [] := by
  rw [typeVars] at h
  induction ts with
  | nil => cases ht
  | cons u us ih =>
    rw [typesVars] at h
    have hmem : ∀ x, x ∉ (typeVars u).union (typesVars us) := fun x hx => by
      rw [h] at hx
      cases hx
    rcases List.mem_cons.mp ht with rfl | ht
    · exact List.eq_nil_iff_forall_not_mem.mpr fun x hx => hmem x (List.mem_union_iff.mpr (.inl hx))
    · refine ih (List.eq_nil_iff_forall_not_mem.mpr fun x hx => hmem x (List.mem_union_iff.mpr (.inr hx))) ht

/-- A class of a type without variables keeps one, that is of the same size. -/
def Solid (s : MonoTypeUnifier) (root : TyTerm → TyTerm) : Prop :=
  ∀ t, typeVars t = [] → typeVars (typeAt s (root t)) = [] ∧ (typeAt s (root t)).size = t.size

lemma moreDefinedType_closed {u v : UTypeRec} (h : typeVars u.ty = [] ∨ typeVars v.ty = []) :
    typeVars (u + v).ty = [] := by
  have hvar : ∀ x : Bytes, typeVars (var x) ≠ [] := fun x => by
    rw [typeVars]
    exact List.cons_ne_nil x []
  change typeVars (moreDefinedType u v).ty = []
  unfold moreDefinedType
  split
  · rename_i hu hv
    rw [hu, hv] at h
    exact absurd h (not_or.mpr ⟨hvar _, hvar _⟩)
  · rename_i hu hv
    rw [hu] at h
    exact h.resolve_left (hvar _)
  · rename_i hu hv
    rw [hv] at h
    exact h.resolve_right (hvar _)
  · rename_i c ss d ts hu hv
    rw [hu, hv] at h
    split_ifs with hlt
    · rw [hu]
      refine h.resolve_right fun hd => ?_
      rw [hd] at hlt
      exact Nat.not_lt_zero _ hlt
    · rw [hv]
      refine h.elim (fun hc => ?_) id
      rw [hc, List.length_nil, Nat.pos_iff_ne_zero, not_not, List.length_eq_zero_iff] at hlt
      exact hlt

lemma Solid.size_eq {s : MonoTypeUnifier} {root : TyTerm → TyTerm} (h : Solid s root) {t u : TyTerm}
    (ht : typeVars t = []) (hu : typeVars u = []) (htu : root t = root u) : t.size = u.size := by
  rw [← (h t ht).2, htu, (h u hu).2]

lemma Solid.congr {s s' : MonoTypeUnifier} {root : TyTerm → TyTerm} (h : Solid s root)
    (htype : ∀ k, typeAt s' k = typeAt s k) : Solid s' root := fun t ht => by
  rw [htype]
  exact h t ht

/-- Two classes are linked, whose types without variables are of equal sizes. -/
lemma Solid.link {E : Equations TyCtor Bytes} {s : MonoTypeUnifier} {root : TyTerm → TyTerm} (h : Solid s root)
    (hs : Gathered E s root) {m : EquivalenceMapping TyTerm UTypeRec} {a b : TyTerm} (ha : root a = a)
    (hb : root b = b)
    (hvalue : valueAt liftUType m.nodes b = valueAt liftUType s.m.nodes b + valueAt liftUType s.m.nodes a)
    (hother : ∀ k ≠ b, valueAt liftUType m.nodes k = valueAt liftUType s.m.nodes k)
    (hsizes : ∀ u v, typeVars u = [] → typeVars v = [] → root u = a → root v = b → u.size = v.size) :
    Solid { s with m := m } (relink root a b) := by
  have hta : root (typeAt s a) = a := (hs.type_mem a).trans ha
  have htb : root (typeAt s b) = b := (hs.type_mem b).trans hb
  have hjoined : ∀ t, typeVars t = [] → root t = a ∨ root t = b →
      typeVars (typeAt { s with m := m } b) = [] ∧ (typeAt { s with m := m } b).size = t.size := by
    intro t ht hroot
    have hclosed : typeVars (typeAt { s with m := m } b) = [] := by
      rw [typeAt, hvalue]
      refine moreDefinedType_closed (hroot.symm.imp (fun hr => ?_) fun hr => ?_)
      · exact hr ▸ (h t ht).1
      · exact hr ▸ (h t ht).1
    refine ⟨hclosed, ?_⟩
    rw [typeAt, hvalue] at hclosed ⊢
    rcases moreDefinedType_eq (valueAt liftUType s.m.nodes b) (valueAt liftUType s.m.nodes a) with heq | heq <;>
      rw [heq] at hclosed ⊢
    · rcases hroot with hr | hr
      · exact (hsizes t _ ht hclosed hr htb).symm
      · exact hr ▸ (h t ht).2
    · rcases hroot with hr | hr
      · exact hr ▸ (h t ht).2
      · exact hsizes _ t hclosed ht hta hr
  intro t ht
  unfold relink
  split_ifs with hroot
  · exact hjoined t ht (.inl hroot)
  · by_cases hrb : root t = b
    · rw [hrb]
      exact hjoined t ht (.inr hrb)
    · rw [typeAt, hother _ hrb]
      exact h t ht

namespace Unified

variable {E : Equations TyCtor Bytes} {s : MonoTypeUnifier} {root : TyTerm → TyTerm}

lemma gathered (h : Unified E s root) : Gathered E s root :=
  ⟨h.rooted, h.sound, h.type_mem, h.type_app, h.fresh, h.zero⟩

lemma of_gathered (h : Gathered E s root) (hclosed : ∀ c d ss ts, root (app c ss) = root (app d ts) →
    c.cname = d.cname ∧ ss.length = ts.length ∧
      ∀ (i : ℕ) a b, ss[i]? = some a → ts[i]? = some b → root a = root b) : Unified E s root :=
  ⟨h.rooted, h.sound, hclosed, h.type_mem, h.type_app, h.fresh, h.zero⟩

lemma root_root (h : Unified E s root) (k : TyTerm) : root (root k) = root k := h.rooted.forest.root_root k

lemma equated_root (h : Unified E s root) (k : TyTerm) : Equated E (root k) k := h.sound _ _ (h.root_root k)

lemma empty (E : Equations TyCtor Bytes) : Unified E MonoTypeUnifier.empty fun k => k where
  rooted := Rooted.empty
  sound a b hab := hab ▸ .refl a
  closed c d ss ts heq := by
    obtain ⟨rfl, rfl⟩ := Term.app.inj heq
    refine ⟨rfl, rfl, fun i a b ha hb => ?_⟩
    cases ha.symm.trans hb
    rfl
  type_mem k := rfl
  type_app c ts := ⟨c, ts, rfl⟩
  fresh k := ⟨rfl, rfl⟩
  zero _ a b hab := congrArg Term.size hab

/-- Only the values and the roots matter. -/
lemma congr (h : Unified E s root) {s' : MonoTypeUnifier} (hrooted : Rooted s'.m.nodes root)
    (hvalue : ∀ k, valueAt liftUType s'.m.nodes k = valueAt liftUType s.m.nodes k)
    (hb : s'.bcount = 0 → s.bcount = 0) : Unified E s' root :=
  .of_gathered (h.gathered.congr hrooted hvalue hb) h.closed

/-- With more equations there is only more that may be joined. -/
lemma mono (h : Unified E s root) {E' : Equations TyCtor Bytes} (hsub : E ⊆ E') : Unified E' s root :=
  { h with sound := fun a b hab => (h.sound a b hab).mono hsub }

lemma findNode (h : Unified E s root) (k : TyTerm) : ∃ m,
    EquivalenceMapping.findNode liftUType s.m k = some (m, root k) ∧ Unified E { s with m := m } root ∧
      Grows s root { s with m := m } root ∧ root k ∈ m.nodes ∧
      ∀ a, typeAt { s with m := m } a = typeAt s a := by
  obtain ⟨m, n, hfind, -, hrooted, hmem, hn, hvalue⟩ := h.rooted.findNode_values liftUType k
  exact ⟨m, hfind, h.congr hrooted hvalue id, ⟨fun a ha => (hmem a).mpr (.inr ha), fun _ _ hab => hab⟩,
    mem_of_lookup hn, fun a => congrArg UTypeRec.ty (hvalue a)⟩

/-- Two classes in which all constructors are equal, with arguments in common classes, can be joined. -/
def Matches (root : TyTerm → TyTerm) (l r : TyTerm) : Prop :=
  ∀ c d ss ts, root (app c ss) = root l → root (app d ts) = root r → c.cname = d.cname ∧ ss.length = ts.length ∧
    ∀ (i : ℕ) a b, ss[i]? = some a → ts[i]? = some b → root a = root b

lemma Matches.symm {l r : TyTerm} (h : Matches root l r) : Matches root r l := by
  intro c d ss ts hc hd
  obtain ⟨hcd, hlen, hargs⟩ := h d c ts ss hd hc
  exact ⟨hcd.symm, hlen.symm, fun i a b ha hb => (hargs i b a hb ha).symm⟩

lemma Matches.congr {l r l' r' : TyTerm} (h : Matches root l r) (hl : root l' = root l) (hr : root r' = root r) :
    Matches root l' r' := fun c d ss ts hc hd => h c d ss ts (hc.trans hl) (hd.trans hr)

/-- Two roots are linked, and the new root's value is that of one of them. -/
lemma link (h : Unified E s root) {m : EquivalenceMapping TyTerm UTypeRec} {a b : TyTerm} (ha : root a = a)
    (hb : root b = b) (hrooted : Rooted m.nodes (relink root a b)) (hmatches : Matches root a b)
    (heq : Equated E a b) (hzero : s.bcount = 0 → a.size = b.size)
    (hvalue : valueAt liftUType m.nodes b = valueAt liftUType s.m.nodes b + valueAt liftUType s.m.nodes a)
    (hother : ∀ k ≠ b, valueAt liftUType m.nodes k = valueAt liftUType s.m.nodes k) :
    Unified E { s with m := m } (relink root a b) := by
  refine .of_gathered (h.gathered.link ha hb hrooted heq hzero hvalue hother) ?_
  intro c d ss ts hcd
  have hargs : c.cname = d.cname ∧ ss.length = ts.length ∧
      ∀ (i : ℕ) x y, ss[i]? = some x → ts[i]? = some y → root x = root y := by
    rcases (relink_eq_iff root).mp hcd with hcd | ⟨hc, hd⟩ | ⟨hc, hd⟩
    · exact h.closed c d ss ts hcd
    · exact hmatches c d ss ts (hc.trans ha.symm) (hd.trans hb.symm)
    · exact hmatches.symm c d ss ts (hc.trans hb.symm) (hd.trans ha.symm)
  exact ⟨hargs.1, hargs.2.1, fun i x y hx hy => (relink_eq_iff root).mpr (.inl (hargs.2.2 i x y hx hy))⟩

lemma joinNodeTypes_spec (h : Unified E s root) {l r : TyTerm} (hl : l ∈ s.m.nodes) (hr : r ∈ s.m.nodes)
    (hmatches : Matches root l r) (heq : Equated E l r) (hzero : s.bcount = 0 → l.size = r.size) :
    ∃ s' root', s.joinNodeTypes l r = .returns s' ∧ Unified E s' root' ∧ Grows s root s' root' ∧
      root' l = root' r ∧ (Solid s root →
        (∀ u v, typeVars u = [] → typeVars v = [] → root u = root l → root v = root r → u.size = v.size) →
          Solid s' root') := by
  have hlv := h.type_mem l
  have hrv := h.type_mem r
  obtain ⟨m, root', hjoin, hrooted, hmem, hsame, hlink⟩ :=
    h.rooted.join_spec liftUType (typeAt s l) (typeAt s r)
  have hrun : s.joinNodeTypes l r = .returns { s with m := m } := by
    simp only [MonoTypeUnifier.joinNodeTypes, nodeType_eq hl, nodeType_eq hr, hjoin, Outcome.bind_def,
      Outcome.ofOption_some, Outcome.returns_bind]
    rfl
  rw [hlv, hrv] at hsame hlink
  refine ⟨_, root', hrun, ?_⟩
  by_cases hlr : root l = root r
  · obtain ⟨rfl, hvalue⟩ := hsame hlr
    exact ⟨h.congr hrooted hvalue id, ⟨hmem, fun _ _ hab => hab⟩, hlr, fun hsolid _ =>
      hsolid.congr fun k => congrArg UTypeRec.ty (hvalue k)⟩
  · obtain ⟨a, b, hends, rfl, hvalue, hother⟩ := hlink hlr
    have hrel := (relink_eq_iff root (a := a) (b := b) (u := l) (v := r)).mpr
      (.inr (hends.imp (fun h => ⟨h.1.symm, h.2.symm⟩) fun h => ⟨h.2.symm, h.1.symm⟩))
    refine ⟨?_, ⟨hmem, fun u v huv => (relink_eq_iff root).mpr (.inl huv)⟩, hrel, fun hsolid hsizes => ?_⟩
    rotate_left
    · rcases hends with ⟨rfl, rfl⟩ | ⟨rfl, rfl⟩
      · exact hsolid.link h.gathered (h.root_root l) (h.root_root r) hvalue hother hsizes
      · exact hsolid.link h.gathered (h.root_root r) (h.root_root l) hvalue hother fun u v hu hv hur hvl =>
          (hsizes v u hv hu hvl hur).symm
    have hsize : ∀ k, s.bcount = 0 → (root k).size = k.size := fun k hz => h.zero hz _ _ (h.root_root k)
    rcases hends with ⟨rfl, rfl⟩ | ⟨rfl, rfl⟩
    · exact h.link (h.root_root l) (h.root_root r) hrooted (hmatches.congr (h.root_root l) (h.root_root r))
        (((h.equated_root l).trans heq).trans (h.equated_root r).symm)
        (fun hz => (hsize l hz).trans ((hzero hz).trans (hsize r hz).symm)) hvalue hother
    · exact h.link (h.root_root r) (h.root_root l) hrooted (hmatches.symm.congr (h.root_root r) (h.root_root l))
        (((h.equated_root r).trans heq.symm).trans (h.equated_root l).symm)
        (fun hz => (hsize r hz).trans ((hzero hz).symm.trans (hsize l hz).symm)) hvalue hother

/-- Where a variable is kept for a class, this has no constructors. -/
lemma matches_of_var (h : Unified E s root) {l r : TyTerm} {x : Bytes} (hl : typeAt s (root l) = var x) :
    Matches root l r := by
  intro c d ss ts hc _
  obtain ⟨e, us, htype⟩ := h.type_app c ss
  rw [hc, hl] at htype
  cases htype

lemma matches_of_args (h : Unified E s root) {l r : TyTerm} {c d : TyCtor} {ss ts : List TyTerm}
    (hl : root (app c ss) = root l) (hr : root (app d ts) = root r) (hcname : c.cname = d.cname)
    (hlen : ss.length = ts.length) (hargs : ∀ p ∈ ss.zip ts, root p.1 = root p.2) : Matches root l r := by
  intro c' d' us vs hc' hd'
  obtain ⟨hc, hus, hu⟩ := h.closed c' c us ss (hc'.trans hl.symm)
  obtain ⟨hd, hvs, hv⟩ := h.closed d' d vs ts (hd'.trans hr.symm)
  refine ⟨hc.trans (hcname.trans hd.symm), hus.trans (hlen.trans hvs.symm), fun i a b ha hb => ?_⟩
  have hi : i < ss.length := hus ▸ (List.getElem?_eq_some_iff.mp ha).1
  have hs := List.getElem?_eq_getElem hi
  have ht := List.getElem?_eq_getElem (hlen ▸ hi)
  have hmem : (ss[i], ts[i]) ∈ ss.zip ts := by
    refine List.mem_of_getElem? (i := i) ?_
    rw [List.getElem?_zip_eq_some]
    exact ⟨hs, ht⟩
  calc root a = root ss[i] := hu i a _ ha hs
    _ = root ts[i] := hargs _ hmem
    _ = root b := (hv i b _ hb ht).symm

lemma unify_succ {m m' : _} {l r a b : TyTerm} (hl : EquivalenceMapping.findNode liftUType s.m l = some (m, a))
    (hr : EquivalenceMapping.findNode liftUType m r = some (m', b)) (ha : a ∈ m'.nodes) (hb : b ∈ m'.nodes) (fuel : ℕ) :
    s.unify (fuel + 1) l r =
      if typeAt { s with m := m' } a = typeAt { s with m := m' } b then .returns { s with m := m' }
      else
        match typeAt { s with m := m' } a, typeAt { s with m := m' } b with
        | .app c ss, .app d ts =>
          if ss.length ≠ ts.length ∨ c.cname ≠ d.cname then .throws
          else (Outcome.foldOver (fun s p => MonoTypeUnifier.unify fuel s p.1 p.2) { s with m := m' } (ss.zip ts)).bind
            fun s => s.joinNodeTypes a b
        | _, _ => MonoTypeUnifier.joinNodeTypes ⟨m', s.bcount + 1⟩ a b := by
  simp only [MonoTypeUnifier.unify, Outcome.bind_def, Outcome.pure_def, hl, hr, Outcome.ofOption_some,
    Outcome.returns_bind, nodeType_eq (s := { s with m := m' }) ha, nodeType_eq (s := { s with m := m' }) hb]
  all_goals rfl

/-- What unification does, after the types' nodes have been found: nothing if they are equal, the arguments of two
constructors are unified, or a variable is bound. -/
lemma unify_cases (h : Unified E s root) (l r : TyTerm) : ∃ t, Unified E t root ∧ Grows s root t root ∧
    root l ∈ t.m.nodes ∧ root r ∈ t.m.nodes ∧
    (∀ k, typeAt t k = typeAt s k) ∧
    ((root l = root r ∧ ∀ fuel, s.unify (fuel + 1) l r = .returns t) ∨
      (Matches root l r ∧ ((∃ x, typeAt t (root l) = var x) ∨ ∃ x, typeAt t (root r) = var x) ∧
        ∀ fuel, s.unify (fuel + 1) l r =
          MonoTypeUnifier.joinNodeTypes { t with bcount := t.bcount + 1 } (root l) (root r)) ∨
      ∃ c d ss ts, root (app c ss) = root l ∧ root (app d ts) = root r ∧
        typeAt t (root l) = app c ss ∧ typeAt t (root r) = app d ts ∧
        ∀ fuel, s.unify (fuel + 1) l r = if ss.length ≠ ts.length ∨ c.cname ≠ d.cname then .throws
          else (Outcome.foldOver (fun s p => MonoTypeUnifier.unify fuel s p.1 p.2) t (ss.zip ts)).bind fun s =>
            s.joinNodeTypes (root l) (root r)) := by
  obtain ⟨ml, hfindl, hl, hgrowl, hmeml, htypel⟩ := h.findNode l
  obtain ⟨mr, hfindr, hr, hgrowr, hmemr, htyper⟩ := hl.findNode r
  have hmeml' : root l ∈ mr.nodes := hgrowr.mem _ hmeml
  refine ⟨{ s with m := mr }, hr, hgrowl.trans hgrowr, hmeml', hmemr, fun k => (htyper k).trans (htypel k), ?_⟩
  have hlmem := (hr.type_mem (root l)).trans (h.root_root l)
  have hrmem := (hr.type_mem (root r)).trans (h.root_root r)
  have hrun := unify_succ hfindl hfindr hmeml' hmemr
  by_cases hsame : typeAt { s with m := mr } (root l) = typeAt { s with m := mr } (root r)
  · refine .inl ⟨?_, fun fuel => (hrun fuel).trans (if_pos hsame)⟩
    rw [← hlmem, ← hrmem, hsame]
  · simp only [if_neg hsame] at hrun
    cases hlt : typeAt { s with m := mr } (root l) with
    | var v =>
      refine .inr (.inl ⟨hr.matches_of_var hlt, .inl ⟨v, rfl⟩, fun fuel => ?_⟩)
      rw [hrun, hlt]
    | app c ss =>
      cases hrt : typeAt { s with m := mr } (root r) with
      | var v =>
        refine .inr (.inl ⟨(hr.matches_of_var hrt).symm, .inr ⟨v, rfl⟩, fun fuel => ?_⟩)
        rw [hrun, hlt, hrt]
      | app d ts =>
        rw [hlt] at hlmem
        rw [hrt] at hrmem
        refine .inr (.inr ⟨c, d, ss, ts, hlmem, hrmem, rfl, rfl, fun fuel => ?_⟩)
        rw [hrun, hlt, hrt]

/-- `s'` comes from `s` by unifications after which `l` and `r` are in one class. -/
def Joins (E : Equations TyCtor Bytes) (s : MonoTypeUnifier) (root : TyTerm → TyTerm) (ps : Equations TyCtor Bytes)
    (s' : MonoTypeUnifier) : Prop :=
  ∃ root', Unified E s' root' ∧ Grows s root s' root' ∧ ∀ p ∈ ps, root' p.1 = root' p.2

/-- What joins each pair of a list joins them all. -/
lemma foldOver_meets (h : Unified E s root) {f : MonoTypeUnifier → TyTerm × TyTerm → Outcome MonoTypeUnifier}
    {ps : Equations TyCtor Bytes} {Q : Prop}
    (hf : ∀ p ∈ ps, ∀ s root, Unified E s root → (f s p).Meets (Joins E s root [p]) Q) :
    (Outcome.foldOver f s ps).Meets (Joins E s root ps) Q := by
  refine Outcome.Meets.foldOver (Joins E s root) ⟨root, h, .refl s root, fun _ => nofun⟩ ?_
  rintro done p s₁ hmem ⟨root₁, hs₁, hgrow₁, hdone⟩
  refine (hf p hmem s₁ root₁ hs₁).mono ?_ id
  rintro s₂ ⟨root₂, hs₂, hgrow₂, hp⟩
  refine ⟨root₂, hs₂, hgrow₁.trans hgrow₂, fun q hq => ?_⟩
  rcases List.mem_append.mp hq with hq | hq
  · exact hgrow₂.root_eq _ _ (hdone q hq)
  · exact hp q hq

lemma unify_meets (fuel : ℕ) {s : MonoTypeUnifier} {root : TyTerm → TyTerm}
    (h : Unified E s root) {l r : TyTerm} (heq : Equated E l r) : (s.unify fuel l r).Meets (Joins E s root [(l, r)])
      (¬ Joinable TyCtor.cname E) := by
  induction fuel generalizing s root l r with
  | zero => exact trivial
  | succ fuel ih =>
    obtain ⟨t, ht, hgrow, hmeml, hmemr, -, hcases⟩ := h.unify_cases l r
    have hroots : Equated E (root l) (root r) := ((h.equated_root l).trans heq).trans (h.equated_root r).symm
    rcases hcases with ⟨hlr, hrun⟩ | ⟨hmatches, -, hrun⟩ | ⟨c, d, ss, ts, hl, hr, -, -, hrun⟩
    · rw [hrun]
      exact ⟨root, ht, hgrow, List.forall_mem_singleton.mpr hlr⟩
    · have ht' : Unified E { t with bcount := t.bcount + 1 } root := ht.congr ht.rooted (fun _ => rfl) nofun
      obtain ⟨s', root', hjoin, hs', hgrow', hlr, -⟩ := ht'.joinNodeTypes_spec hmeml hmemr
        (hmatches.congr (h.root_root l) (h.root_root r)) hroots nofun
      rw [hrun, hjoin]
      refine ⟨root', hs', ⟨fun k hk => hgrow'.mem k (hgrow.mem k hk), hgrow'.root_eq⟩, List.forall_mem_singleton.mpr ?_⟩
      rwa [hgrow'.root_eq _ _ (h.root_root l), hgrow'.root_eq _ _ (h.root_root r)] at hlr
    · have happ : Equated E (app c ss) (app d ts) := ((h.sound _ _ hl).trans heq).trans (h.sound _ _ hr).symm
      rw [hrun]
      split_ifs with hclash
      · intro hjoinable
        obtain ⟨hform, hlen⟩ := hjoinable c d ss ts happ
        exact hclash.elim (fun h => h hlen) fun h => h hform
      · obtain ⟨hlen, hform⟩ := not_or.mp hclash
        rw [not_not] at hlen hform
        refine Outcome.Meets.bind (ht.foldOver_meets ?_) ?_
        · rintro ⟨a, b⟩ hmem s₁ root₁ hs₁
          exact ih hs₁ (happ.of_mem_zip hmem)
        rintro s₁ ⟨root₁, hs₁, hgrow₁, hjoined⟩
        have hl₁ : root₁ (app c ss) = root₁ (root l) := hgrow₁.root_eq _ _ (hl.trans (h.root_root l).symm)
        have hr₁ : root₁ (app d ts) = root₁ (root r) := hgrow₁.root_eq _ _ (hr.trans (h.root_root r).symm)
        have hzero : s₁.bcount = 0 → (root l).size = (root r).size := fun hz =>
          calc (root l).size = (app c ss).size := (hs₁.zero hz _ _ hl₁).symm
            _ = (app d ts).size := size_app_eq hlen fun p hp => hs₁.zero hz _ _ (hjoined p hp)
            _ = (root r).size := hs₁.zero hz _ _ hr₁
        have hmatches := hs₁.matches_of_args hl₁ hr₁ hform hlen hjoined
        obtain ⟨s', root', hjoin, hs', hgrow', hlr, -⟩ := hs₁.joinNodeTypes_spec
          (hgrow₁.mem _ hmeml) (hgrow₁.mem _ hmemr) hmatches hroots hzero
        rw [hjoin]
        have hgrow'' := (hgrow.trans hgrow₁).trans hgrow'
        refine ⟨root', hs', hgrow'', List.forall_mem_singleton.mpr ?_⟩
        rwa [hgrow''.root_eq _ _ (h.root_root l), hgrow''.root_eq _ _ (h.root_root r)] at hlr

/-- When all equations have been unified, the classes are what they equate. -/
lemma root_eq_of_equated (h : Unified E s root) (hE : ∀ p ∈ E, root p.1 = root p.2) {a b : TyTerm}
    (hab : Equated E a b) : root a = root b := by
  induction hab with
  | pair hmem => exact hE _ hmem
  | refl => rfl
  | symm _ ih => exact ih.symm
  | trans _ _ ih ih' => exact ih.trans ih'
  | arg _ hs ht ih => exact (h.closed _ _ _ _ ih).2.2 _ _ _ hs ht

lemma unifyAll_meets (E : Equations TyCtor Bytes) (fuel : ℕ) :
    (Outcome.foldOver
      (fun s (p : TyTerm × TyTerm) => if p.1 = p.2 then pure s else MonoTypeUnifier.unify fuel s p.1 p.2)
      MonoTypeUnifier.empty E).Meets (Joins E MonoTypeUnifier.empty (fun k => k) E) (¬ Joinable TyCtor.cname E) := by
  refine (empty E).foldOver_meets ?_
  rintro ⟨a, b⟩ hmem s root hs
  dsimp only
  split_ifs with hab
  · exact ⟨root, hs, .refl s root, List.forall_mem_singleton.mpr (congrArg root hab)⟩
  · exact hs.unify_meets fuel (.pair hmem)

/-! ### Enough fuel -/

lemma exists_joinNodeTypes (h : Unified E s root) {l r : TyTerm} (hl : l ∈ s.m.nodes) (hr : r ∈ s.m.nodes) :
    ∃ s', s.joinNodeTypes l r = .returns s' := by
  obtain ⟨m, -, hjoin, -⟩ := h.rooted.join_spec liftUType (typeAt s l) (typeAt s r)
  refine ⟨{ s with m := m }, ?_⟩
  simp only [MonoTypeUnifier.joinNodeTypes, nodeType_eq hl, nodeType_eq hr, hjoin, Outcome.bind_def,
    Outcome.ofOption_some, Outcome.returns_bind, Outcome.pure_def]

end Unified

lemma unify_le {n m : ℕ} (h : n ≤ m) (s : MonoTypeUnifier) (l r : TyTerm) :
    (s.unify n l r).Le (s.unify m l r) := by
  induction n generalizing m s l r with
  | zero => exact .inl rfl
  | succ n ih =>
    cases m with
    | zero => cases h
    | succ m =>
      simp only [MonoTypeUnifier.unify, Outcome.bind_def]
      refine Outcome.Le.bind (.refl _) fun pl => Outcome.Le.bind (.refl _) fun pr =>
        Outcome.Le.bind (.refl _) fun lhsv => Outcome.Le.bind (.refl _) fun rhsv => ?_
      split_ifs
      · exact .refl _
      · cases lhsv with
        | var v => exact .refl _
        | app c ss =>
          cases rhsv with
          | var v => exact .refl _
          | app d ts =>
            dsimp only
            split_ifs
            · exact .refl _
            · have hargs := Outcome.Le.foldOver
                fun s (p : TyTerm × TyTerm) => ih (Nat.le_of_succ_le_succ h) s p.1 p.2
              exact Outcome.Le.bind (hargs _ _) fun s => .refl _

namespace Unified

variable {E : Equations TyCtor Bytes} {s : MonoTypeUnifier} {root : TyTerm → TyTerm}

/-- The unification of types that are finite comes to an end. -/
lemma exists_unify {l : TyTerm} (hl : IsFinite E l) (h : Unified E s root) {r : TyTerm} (heq : Equated E l r) :
    ∃ fuel, s.unify fuel l r ≠ .runsOn := by
  change Acc (Below E) l at hl
  induction hl generalizing s root r with
  | intro l _ ih =>
    obtain ⟨t, ht, -, hmeml, hmemr, -, hcases⟩ := h.unify_cases l r
    rcases hcases with ⟨-, hrun⟩ | ⟨-, -, hrun⟩ | ⟨c, d, ss, ts, hc, hd, -, -, hrun⟩
    · refine ⟨1, ?_⟩
      rw [hrun]
      exact nofun
    · have ht' : Unified E { t with bcount := t.bcount + 1 } root := ht.congr ht.rooted (fun _ => rfl) nofun
      obtain ⟨s', hjoin⟩ := ht'.exists_joinNodeTypes hmeml hmemr
      refine ⟨1, ?_⟩
      rw [hrun, hjoin]
      exact nofun
    · by_cases hclash : ss.length ≠ ts.length ∨ c.cname ≠ d.cname
      · refine ⟨1, ?_⟩
        rw [hrun, if_pos hclash]
        exact nofun
      · have happ : Equated E (app c ss) (app d ts) := ((h.sound _ _ hc).trans heq).trans (h.sound _ _ hd).symm
        have hargs : ∃ fuel, Outcome.foldOver (fun s p => MonoTypeUnifier.unify fuel s p.1 p.2) t (ss.zip ts) ≠
            .runsOn := by
          refine Outcome.exists_foldOver (fun n m s p hle => unify_le hle s p.1 p.2)
            (I := fun s => ∃ root, Unified E s root) _ ?_ ?_ ⟨root, ht⟩
          · rintro n s₁ ⟨a, b⟩ s₂ hmem ⟨root₁, hs₁⟩ hn
            obtain ⟨root₂, hs₂, -⟩ := (hs₁.unify_meets n (happ.of_mem_zip hmem)).of_returns hn
            exact ⟨root₂, hs₂⟩
          · rintro s₁ ⟨a, b⟩ hmem ⟨root₁, hs₁⟩
            exact ih a ⟨c, ss, h.sound _ _ hc.symm, (List.of_mem_zip hmem).1⟩ hs₁ (happ.of_mem_zip hmem)
        obtain ⟨fuel, hfuel⟩ := hargs
        refine ⟨fuel + 1, ?_⟩
        rw [hrun, if_neg hclash]
        have hmeets : (Outcome.foldOver (fun s (p : TyTerm × TyTerm) => s.unify fuel p.1 p.2) t (ss.zip ts)).Meets
            (Joins E t root (ss.zip ts)) (¬ Joinable TyCtor.cname E) :=
          ht.foldOver_meets fun p hmem s₁ root₁ hs₁ => hs₁.unify_meets fuel (happ.of_mem_zip (a := p.1) (b := p.2) hmem)
        cases hfold : Outcome.foldOver (fun s p => MonoTypeUnifier.unify fuel s p.1 p.2) t (ss.zip ts) with
        | runsOn => exact absurd hfold hfuel
        | throws => exact nofun
        | returns s₁ =>
          obtain ⟨root₁, hs₁, hgrow₁, -⟩ := hmeets.of_returns hfold
          obtain ⟨s', hjoin⟩ := hs₁.exists_joinNodeTypes (hgrow₁.mem _ hmeml) (hgrow₁.mem _ hmemr)
          rw [Outcome.returns_bind, hjoin]
          exact nofun

/-- Where one of two types has no variables, they are unified in at most as many steps as it has parts. -/
lemma unify_closed {fuel : ℕ} (h : Unified E s root) (hsolid : Solid s root) {l r : TyTerm} (heq : Equated E l r)
    (hclosed : typeVars l = [] ∧ l.size ≤ fuel ∨ typeVars r = [] ∧ r.size ≤ fuel) :
    (s.unify fuel l r).Ends fun s' =>
      ∃ root', Unified E s' root' ∧ Grows s root s' root' ∧ root' l = root' r ∧ Solid s' root' := by
  induction fuel generalizing s root l r with
  | zero =>
    have hsize : ∀ t : TyTerm, ¬ t.size ≤ 0 := fun t => by cases t <;> rw [Term.size] <;> omega
    exact absurd hclosed (not_or.mpr ⟨fun h => hsize l h.2, fun h => hsize r h.2⟩)
  | succ fuel ih =>
    obtain ⟨t, ht, hgrow, hmeml, hmemr, htype, hcases⟩ := h.unify_cases l r
    have hsolid' : Solid t root := hsolid.congr htype
    have hroots : Equated E (root l) (root r) := ((h.equated_root l).trans heq).trans (h.equated_root r).symm
    rcases hcases with ⟨hlr, hrun⟩ | ⟨hmatches, hvar, hrun⟩ | ⟨c, d, ss, ts, hc, hd, htl, htr, hrun⟩
    · rw [hrun]
      exact ⟨root, ht, hgrow, hlr, hsolid'⟩
    · have ht' : Unified E { t with bcount := t.bcount + 1 } root := ht.congr ht.rooted (fun _ => rfl)
        (fun hz => absurd hz (Nat.succ_ne_zero _))
      obtain ⟨s', root', hjoin, hs', hgrow', hlr, hkeep⟩ := ht'.joinNodeTypes_spec hmeml hmemr
        (hmatches.congr (h.root_root l) (h.root_root r)) hroots fun hz => absurd hz (Nat.succ_ne_zero _)
      rw [hrun, hjoin]
      refine ⟨root', hs', ⟨fun k hk => hgrow'.mem k (hgrow.mem k hk), hgrow'.root_eq⟩, ?_, hkeep hsolid' ?_⟩
      · rwa [hgrow'.root_eq _ _ (h.root_root l), hgrow'.root_eq _ _ (h.root_root r)] at hlr
      · -- One of the classes has no type without variables.
        intro u v hu hv hul hvr
        have hopen : ∀ t' x, typeVars t' = [] → typeAt t (root t') ≠ var x := fun t' x ht' hx => by
          have hnone := (hsolid' t' ht').1
          rw [hx, typeVars] at hnone
          cases hnone
        rcases hvar with ⟨x, hx⟩ | ⟨x, hx⟩
        · exact absurd (by rw [hul, h.root_root, hx]) (hopen u x hu)
        · exact absurd (by rw [hvr, h.root_root, hx]) (hopen v x hv)
    · have happ : Equated E (app c ss) (app d ts) := ((h.sound _ _ hc).trans heq).trans (h.sound _ _ hd).symm
      have hargs : ∀ a ∈ ss, ∀ b ∈ ts, typeVars a = [] ∧ a.size ≤ fuel ∨ typeVars b = [] ∧ b.size ≤ fuel := by
        intro a ha b hb
        rcases hclosed with ⟨hl, hfuel⟩ | ⟨hr, hfuel⟩
        · obtain ⟨hnone, hsize⟩ := htl ▸ hsolid' l hl
          have hlt : a.size < (app c ss).size := size_lt ha
          exact .inl ⟨mem_typesVars_eq_nil hnone ha, by omega⟩
        · obtain ⟨hnone, hsize⟩ := htr ▸ hsolid' r hr
          have hlt : b.size < (app d ts).size := size_lt hb
          exact .inr ⟨mem_typesVars_eq_nil hnone hb, by omega⟩
      rw [hrun]
      split_ifs with hclash
      · exact trivial
      · obtain ⟨hlen, hform⟩ := not_or.mp hclash
        rw [not_not] at hlen hform
        refine Outcome.Ends.bind (Outcome.Ends.foldOver (fun done s' => ∃ root', Unified E s' root' ∧
          Grows t root s' root' ∧ (∀ p ∈ done, root' p.1 = root' p.2) ∧ Solid s' root')
          ⟨root, ht, .refl t root, fun p hp => absurd hp List.not_mem_nil, hsolid'⟩ ?_) ?_
        · rintro done ⟨a, b⟩ s₁ hmem ⟨root₁, hs₁, hgrow₁, hdone, hsolid₁⟩
          obtain ⟨ha, hb⟩ := List.of_mem_zip hmem
          refine (ih hs₁ hsolid₁ (happ.of_mem_zip hmem) (hargs a ha b hb)).mono ?_
          rintro s₂ ⟨root₂, hs₂, hgrow₂, hab, hsolid₂⟩
          refine ⟨root₂, hs₂, hgrow₁.trans hgrow₂, fun q hq => ?_, hsolid₂⟩
          rcases List.mem_append.mp hq with hq | hq
          · exact hgrow₂.root_eq _ _ (hdone q hq)
          · rw [List.mem_singleton.mp hq]
            exact hab
        · rintro s₁ ⟨root₁, hs₁, hgrow₁, hjoined, hsolid₁⟩
          have hl₁ : root₁ (app c ss) = root₁ (root l) := hgrow₁.root_eq _ _ (hc.trans (h.root_root l).symm)
          have hr₁ : root₁ (app d ts) = root₁ (root r) := hgrow₁.root_eq _ _ (hd.trans (h.root_root r).symm)
          have hzero : s₁.bcount = 0 → (root l).size = (root r).size := fun hz =>
            calc (root l).size = (app c ss).size := (hs₁.zero hz _ _ hl₁).symm
              _ = (app d ts).size := size_app_eq hlen fun p hp => hs₁.zero hz _ _ (hjoined p hp)
              _ = (root r).size := hs₁.zero hz _ _ hr₁
          have hmatches := hs₁.matches_of_args hl₁ hr₁ hform hlen hjoined
          obtain ⟨s', root', hjoin, hs', hgrow', hlr, hkeep⟩ := hs₁.joinNodeTypes_spec (hgrow₁.mem _ hmeml)
            (hgrow₁.mem _ hmemr) hmatches hroots hzero
          rw [hjoin]
          have hgrow'' := (hgrow.trans hgrow₁).trans hgrow'
          refine ⟨root', hs', hgrow'', ?_, hkeep hsolid₁ ?_⟩
          · rwa [hgrow''.root_eq _ _ (h.root_root l), hgrow''.root_eq _ _ (h.root_root r)] at hlr
          · -- Types of the two classes have arguments that have been joined.
            intro u v hu hv hul hvr
            have happs : ∀ t : TyTerm, typeVars t = [] → ∃ e us, t = app e us := by
              rintro (x | ⟨e, us⟩) hnone
              · rw [typeVars] at hnone
                cases hnone
              · exact ⟨e, us, rfl⟩
            obtain ⟨e, us, rfl⟩ := happs u hu
            obtain ⟨f, vs, rfl⟩ := happs v hv
            obtain ⟨-, hlen', huv⟩ := hmatches e f us vs hul hvr
            refine size_app_eq hlen' fun p hp => ?_
            obtain ⟨hpu, hpv⟩ := List.of_mem_zip hp
            obtain ⟨i, hi⟩ := List.mem_iff_getElem?.mp hp
            obtain ⟨ha, hb⟩ := List.getElem?_zip_eq_some.mp hi
            exact hsolid₁.size_eq (mem_typesVars_eq_nil hu hpu) (mem_typesVars_eq_nil hv hpv) (huv i _ _ ha hb)

lemma unifyAll_le {n m : ℕ} (h : n ≤ m) (E : Equations TyCtor Bytes) :
    (Outcome.foldOver (fun s (p : TyTerm × TyTerm) => if p.1 = p.2 then pure s else s.unify n p.1 p.2)
      MonoTypeUnifier.empty E).Le
    (Outcome.foldOver (fun s (p : TyTerm × TyTerm) => if p.1 = p.2 then pure s else s.unify m p.1 p.2)
      MonoTypeUnifier.empty E) := by
  refine Outcome.Le.foldOver (fun s p => ?_) _ E
  split_ifs
  · exact .refl _
  · exact unify_le h s p.1 p.2

/-- If all types are finite, all equations are unified or one can not be. -/
lemma exists_unifyAll (hfin : ∀ t, IsFinite E t) : ∃ fuel,
    Outcome.foldOver (fun s (p : TyTerm × TyTerm) => if p.1 = p.2 then pure s else MonoTypeUnifier.unify fuel s p.1 p.2)
      MonoTypeUnifier.empty E ≠ .runsOn := by
  refine Outcome.exists_foldOver ?_ (I := fun s => ∃ root, Unified E s root) E ?_ ?_ ⟨_, empty E⟩
  · intro n m s p hle
    split_ifs
    · exact .refl _
    · exact unify_le hle s p.1 p.2
  · rintro n s p s' hmem ⟨root, hs⟩ hn
    split_ifs at hn
    · cases hn
      exact ⟨root, hs⟩
    · obtain ⟨root', hs', -⟩ := (hs.unify_meets n (.pair hmem)).of_returns hn
      exact ⟨root', hs'⟩
  · rintro s p hmem ⟨root, hs⟩
    obtain ⟨fuel, hfuel⟩ := hs.exists_unify (hfin p.1) (.pair hmem)
    refine ⟨fuel, ?_⟩
    split_ifs
    · exact nofun
    · exact hfuel

end Unified

end Hobbes.Lang
