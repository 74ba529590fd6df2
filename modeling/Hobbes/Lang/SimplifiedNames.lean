import Hobbes.Lang.SimplifyNames

/-!
# When names are simplified

The new names are put in place of the old ones, and of the new ones again where one of them is an old one too: the
result is renamed just if no new name is in use for another variable.
-/

namespace Hobbes.Lang

open Core

variable {L : Layout}

/-! ### Renaming -/

section

variable {ρ : Bytes → Bytes} {bound : List Bytes} {t u : MonoType}

@[simp] lemma renameBy_eq_none {x : Bytes} : renameBy ρ x = none ↔ ρ x = x := by
  unfold renameBy
  split_ifs with h <;> simp [h]

lemma renameBy_eq_some {x : Bytes} (h : renameBy ρ x = some t) : ρ x ≠ x ∧ t = .tvar (ρ x) := by
  unfold renameBy at h
  split_ifs at h with hx
  exact ⟨hx, (Option.some.inj h).symm⟩

/-- The new name of a free variable is none that is bound around it. -/
lemma Replaced.notMem_of_renameBy (h : Replaced L false (renameBy ρ) bound t u) :
    ∀ x ∈ t.fv, x ∉ bound → ρ x ∉ bound := by
  induction h with
  | bound hx =>
    intro y hy hb
    obtain rfl := List.mem_singleton.mp hy
    exact absurd hx hb
  | free hx hs =>
    intro y hy _
    obtain rfl := List.mem_singleton.mp hy
    rwa [renameBy_eq_none.mp hs]
  | once _ hx hs hfresh =>
    intro y hy _
    obtain rfl := List.mem_singleton.mp hy
    obtain ⟨-, rfl⟩ := renameBy_eq_some hs
    exact hfresh _ List.mem_cons_self
  | resolved htr => cases htr
  | @node bound t u us ht hrepr hlen _ _ ih =>
    intro y hy hb
    rcases mem_fv_iff.mp hy with hy | hy | ⟨c, hc, hy, hcb⟩
    · exact absurd hy (ht y)
    · rwa [renameBy_eq_none.mp (hrepr y hy hb)]
    · obtain ⟨v, hv⟩ := exists_mem_zip hlen hc
      have := ih (c, v) hv y hy fun h => (List.mem_append.mp h).elim hcb hb
      exact fun h => this (List.mem_append_right _ h)

/-- A renaming counts only for the variables that are free. -/
lemma Replaced.congr {s s' : TypeSubst} (h : Replaced L false s bound t u) :
    (∀ x ∈ t.fv, x ∉ bound → s x = s' x) → Replaced L false s' bound t u := by
  induction h with
  | bound hx => exact fun _ => .bound hx
  | free hx hs => exact fun heq => .free hx ((heq _ List.mem_cons_self hx).symm.trans hs)
  | once htr hx hs hfresh => exact fun heq => .once htr hx ((heq _ List.mem_cons_self hx).symm.trans hs) hfresh
  | resolved htr => cases htr
  | @node bound t u us ht hrepr hlen _ hu ih =>
    intro heq
    refine .node ht (fun x hx hb => ?_) hlen (fun p hp => ih p hp fun x hx hb => ?_) hu
    · rw [← heq x (mem_fv_iff.mpr (Or.inr (Or.inl hx))) hb]
      exact hrepr x hx hb
    · rw [List.mem_append, not_or] at hb
      exact heq x (mem_fv_iff.mpr (Or.inr (Or.inr ⟨p.1, (List.of_mem_zip hp).1, hx, hb.1⟩))) hb.2

/-- Where no image is mapped in turn, it is all the same whether a substitution is transitive. -/
lemma Replaced.transitive {s : TypeSubst} (himage : ∀ x t, s x = some t → ∃ y, t = .tvar y ∧ s y = none)
    (h : Replaced L false s bound t u) : Replaced L true s bound t u := by
  induction h with
  | bound hx => exact .bound hx
  | free hx hs => exact .free hx hs
  | once _ hx hs hfresh =>
    obtain ⟨y, rfl, hy⟩ := himage _ _ hs
    exact .resolved rfl hx hs (.free List.not_mem_nil hy) hfresh
  | resolved htr => cases htr
  | node ht hrepr hlen _ hu ih => exact .node ht hrepr hlen ih hu

lemma Child.Becomes.freeTVars {c : Child} {p : Child × MonoType} (h : c.Becomes p) :
    c.type.freeTVars = p.2.freeTVars := by
  rcases h.2.2 with heq | ⟨-, heq⟩ <;> rw [heq]
  exact freeTVars_normIfOpaquePtr p.2

lemma remake_of_counted {us : List MonoType} (hprim : ∀ nm r, t ≠ .prim nm r) (htabs : ∀ targns b, t ≠ .tabs targns b)
    (h : t.remake L us = some u) : (∀ nm r, u ≠ .prim nm r) ∧ ∀ targns b, u ≠ .tabs targns b := by
  cases t with
  | prim nm r => exact absurd rfl (hprim nm r)
  | tabs targns b => exact absurd rfl (htabs targns b)
  | record ms =>
    obtain ⟨ms', rfl, -⟩ := Record.make_eq_some h
    exact ⟨nofun, nofun⟩
  | _ => rcases us with _ | ⟨_, _ | ⟨_, _ | ⟨_, _⟩⟩⟩ <;> cases h <;> exact ⟨nofun, nofun⟩

/-- What is counted in the result are the new names of what is counted in the type. -/
lemma Replaced.mem_freeTVars (h : Replaced L false (renameBy ρ) bound t u) :
    ∀ w, w ∈ u.freeTVars ↔ ∃ v ∈ t.freeTVars, (if v ∈ bound then v else ρ v) = w := by
  induction h with
  | bound hx => simp [MonoType.freeTVars, hx, eq_comm]
  | free hx hs => simp [MonoType.freeTVars, hx, renameBy_eq_none.mp hs, eq_comm]
  | once _ hx hs _ =>
    obtain ⟨-, rfl⟩ := renameBy_eq_some hs
    simp [MonoType.freeTVars, hx, eq_comm]
  | resolved htr => cases htr
  | @node bound t u us ht hrepr hlen hparts hu ih =>
    intro w
    by_cases htabs : ∃ targns b, t = .tabs targns b
    · obtain ⟨targns, b, rfl⟩ := htabs
      rcases us with _ | ⟨v, _ | ⟨_, _⟩⟩ <;> cases hlen
      cases hu
      simp [MonoType.freeTVars]
    by_cases hprim : ∃ nm r, t = .prim nm r
    · obtain ⟨nm, r, rfl⟩ := hprim
      cases hu
      cases r with
      | none => simp [MonoType.freeTVars]
      | some r =>
        have hkeep : ∀ v ∈ (MonoType.prim nm (some r)).freeTVars, (if v ∈ bound then v else ρ v) = v := by
          intro v hv
          split_ifs with hb
          · rfl
          · exact renameBy_eq_none.mp (hrepr v (freeTVars_subset_fv r hv) hb)
        constructor
        · exact fun hw => ⟨w, hw, hkeep w hw⟩
        · rintro ⟨v, hv, heq⟩
          exact (hkeep v hv).symm.trans heq ▸ hv
    push Not at htabs hprim
    obtain ⟨huprim, hutabs⟩ := remake_of_counted hprim htabs hu
    obtain ⟨hvar, -, -, hbecomes⟩ := remake_spec hlen hu
    rw [mem_freeTVars_iff huprim hutabs, or_iff_right fun hw => ht w (hvar w hw)]
    rw [exists_iff_of_forall₂ hbecomes fun c p hcp => by rw [hcp.freeTVars, hcp.1]]
    constructor
    · rintro ⟨p, hp, hw, hb⟩
      obtain ⟨v, hv, rfl⟩ := (ih p hp w).mp hw
      have hvb : v ∉ p.1.binds := fun h => by
        rw [if_pos (List.mem_append_left _ h)] at hb
        exact hb h
      refine ⟨v, (mem_freeTVars_iff hprim htabs).mpr (Or.inr ⟨p.1, (List.of_mem_zip hp).1, hv, hvb⟩), ?_⟩
      simp only [List.mem_append, hvb, false_or]
    · rintro ⟨v, hv, rfl⟩
      obtain ⟨c, hc, hv, hvb⟩ := ((mem_freeTVars_iff hprim htabs).mp hv).resolve_left (ht v)
      obtain ⟨d, hd⟩ := exists_mem_zip hlen hc
      refine ⟨(c, d), hd, (ih (c, d) hd _).mpr ⟨v, hv, by simp only [List.mem_append, hvb, false_or]⟩, ?_⟩
      split_ifs with hb
      · exact hvb
      · have hnew := (hparts (c, d) hd).notMem_of_renameBy v (freeTVars_subset_fv c.type hv)
          fun h => (List.mem_append.mp h).elim hvb hb
        exact fun h => hnew (List.mem_append_left _ h)

/-! ### Simplified types -/

/-- No primitive type's representation has free variables. -/
inductive MonoType.Transparent : MonoType → Prop where
  | mk {t : MonoType} (hrepr : t.reprVars = []) (h : ∀ c ∈ t.children, c.type.Transparent) : t.Transparent

lemma MonoType.Transparent.normIfOpaquePtr (h : t.Transparent) : (normIfOpaquePtr t).Transparent := by
  cases t with
  | opaquePtr nm sz scontig => exact .mk rfl nofun
  | _ => exact h

lemma Replaced.transparent (h : Replaced L false (renameBy ρ) bound t u) : t.Transparent → u.Transparent := by
  induction h with
  | bound => exact id
  | free => exact id
  | once _ _ hs _ =>
    obtain ⟨-, rfl⟩ := renameBy_eq_some hs
    exact fun _ => .mk rfl nofun
  | resolved htr => cases htr
  | @node bound t u us ht hrepr hlen _ hu ih =>
    rintro ⟨hreprs, hchildren⟩
    obtain ⟨-, hrepr', -, hbecomes⟩ := remake_spec hlen hu
    refine .mk (hrepr'.trans hreprs) (forall_of_forall₂ hbecomes (fun c p hcp hp => ?_)
      fun p hp => ih p hp (hchildren p.1 (List.of_mem_zip hp).1))
    rcases hcp.2.2 with heq | ⟨-, heq⟩ <;> rw [heq]
    · exact hp
    · exact hp.normIfOpaquePtr

lemma normIfOpaquePtr_of_remake {us : List MonoType} (h : t.remake L us = some u) (ht : normIfOpaquePtr t = t) :
    normIfOpaquePtr u = u := by
  cases t with
  | opaquePtr nm sz scontig =>
    cases h
    cases scontig with
    | false => rfl
    | true => exact absurd (MonoType.opaquePtr.inj ht).2.2 (by decide)
  | record ms =>
    obtain ⟨ms', rfl, -⟩ := Record.make_eq_some h
    rfl
  | _ => rcases us with _ | ⟨_, _ | ⟨_, _ | ⟨_, _⟩⟩⟩ <;> cases h <;> rfl

/-- A type under other names is one whose parts have been made already. -/
lemma Replaced.remade (h : Replaced L false (renameBy ρ) bound t u) :
    (normIfOpaquePtr t = t → normIfOpaquePtr u = u) ∧
      ∀ bound', Replaced L false (fun _ => none) bound' u u := by
  have hvar : ∀ (x : Bytes) bound', Replaced L false (fun _ => none) bound' (.tvar x) (.tvar x) := by
    intro x bound'
    by_cases hx : x ∈ bound'
    · exact .bound hx
    · exact .free hx rfl
  induction h with
  | bound => exact ⟨id, hvar _⟩
  | free => exact ⟨id, hvar _⟩
  | once _ _ hs _ =>
    obtain ⟨-, rfl⟩ := renameBy_eq_some hs
    exact ⟨fun _ => rfl, hvar _⟩
  | resolved htr => cases htr
  | @node bound t u us ht hrepr hlen _ hu ih =>
    obtain ⟨hvar', -, hagain, hbecomes⟩ := remake_spec hlen hu
    have hlen' : us.length = u.children.length := by
      have := hbecomes.length_eq
      rw [List.length_zip] at this
      omega
    refine ⟨normIfOpaquePtr_of_remake hu, fun bound' => ?_⟩
    refine .node (fun x hx => ht x (hvar' x hx)) (fun _ _ _ => rfl) hlen' (fun p hp => ?_) hagain
    obtain ⟨d, hd, hcd⟩ := exists_of_forall₂_zip hbecomes hp
    have htype : p.1.type = p.2 := by
      rcases hcd.2.2 with heq | ⟨hnorm, heq⟩
      · exact heq
      · rw [heq, (ih (d, p.2) hd).1 hnorm]
    rw [htype]
    exact (ih (d, p.2) hd).2 _

end

/-! ### The result of the pass -/

section

variable {s : TypeSubst} {ρ : Bytes → Bytes}

/-- The name that a variable is given by way of others. -/
inductive EndsAt (s : TypeSubst) : Bytes → Bytes → Prop where
  | here {x : Bytes} (hs : s x = none) : EndsAt s x x
  | step {x y z : Bytes} (hs : s x = some (.tvar y)) (h : EndsAt s y z) : EndsAt s x z

lemma EndsAt.unique {x y z : Bytes} (hy : EndsAt s x y) (hz : EndsAt s x z) : y = z := by
  induction hy with
  | here hs =>
    cases hz with
    | here => rfl
    | step hs' => cases hs.symm.trans hs'
  | step hs _ ih =>
    cases hz with
    | here hs' => cases hs.symm.trans hs'
    | step hs' hz =>
      cases hs.symm.trans hs'
      exact ih hz

lemma EndsAt.of_substituteF {n : ℕ} {cut : List Bytes} {x z : Bytes} (himage : ∀ x t, s x = some t → ∃ y, t = .tvar y)
    (h : substituteF L n (s.cut cut) (.tvar x) = some (.tvar z)) (hz : z ∉ cut) : EndsAt s x z := by
  induction n generalizing x with
  | zero => cases h
  | succ n ih =>
    rcases substituteF_tvar_eq_some h with ⟨hs, heq⟩ | ⟨t, hs, ht⟩
    · cases heq
      rw [cut_of_notMem hz] at hs
      exact .here hs
    · have hx : x ∉ cut := fun hx => by
        rw [cut_of_mem hx] at hs
        cases hs
      rw [cut_of_notMem hx] at hs
      obtain ⟨y, rfl⟩ := himage x t hs
      exact .step hs (ih ht)

/-- Every free variable of a type that is renamed by a run ends at its new name. -/
lemma Replaced.endsAt {bound : List Bytes} {t u : MonoType} (himage : ∀ x t, s x = some t → ∃ y, t = .tvar y)
    (h : Replaced L false (renameBy ρ) bound t u) : ∀ {n : ℕ} {cut : List Bytes}, cut ⊆ bound → t.Transparent →
      substituteF L n (s.cut cut) t = some u → ∀ x ∈ t.fv, x ∉ bound → EndsAt s x (ρ x) := by
  induction h with
  | bound hx =>
    intro n cut _ _ _ y hy hb
    obtain rfl := List.mem_singleton.mp hy
    exact absurd hx hb
  | free hx hs =>
    intro n cut hcut _ hrun y hy _
    obtain rfl := List.mem_singleton.mp hy
    rw [renameBy_eq_none.mp hs]
    exact .of_substituteF himage hrun fun h => hx (hcut h)
  | once _ hx hs hfresh =>
    intro n cut hcut _ hrun y hy _
    obtain rfl := List.mem_singleton.mp hy
    obtain ⟨-, rfl⟩ := renameBy_eq_some hs
    exact .of_substituteF himage hrun fun h => hfresh _ List.mem_cons_self (hcut h)
  | resolved htr => cases htr
  | @node bound t u us ht _ hlen _ hu ih =>
    rintro (_ | n) cut hcut ⟨hreprs, hchildren⟩ hrun y hy hb
    · cases t <;> cases hrun
    · obtain ⟨us', hlen', hu', hparts⟩ := substituteF_node ht hrun
      obtain rfl := remake_injective hlen hlen' hu hu'
      rcases mem_fv_iff.mp hy with hy | hy | ⟨c, hc, hy, hcb⟩
      · exact absurd hy (ht y)
      · rw [hreprs] at hy
        cases hy
      · obtain ⟨v, hv⟩ := exists_mem_zip hlen hc
        have hcut' : c.cuts ++ cut ⊆ c.binds ++ bound := append_subset_append (cuts_subset_binds hc) hcut
        have hrun' := hparts (c, v) hv
        rw [TypeSubst.cut_cut] at hrun'
        exact ih (c, v) hv hcut' (hchildren c hc) hrun' y hy fun h => (List.mem_append.mp h).elim hcb hb

lemma freeTVars_of_isMonoSingular {t : MonoType} (h : t.isMonoSingular) : t.freeTVars = [] := by
  rw [MonoType.isMonoSingular, Bool.and_eq_true] at h
  exact List.isEmpty_iff.mp h.1

lemma Substituted.mem_freeTVars {t u : MonoType} (h : Substituted L false (renameBy ρ) t u) {w : Bytes} :
    w ∈ u.freeTVars ↔ ∃ v ∈ t.freeTVars, ρ v = w := by
  unfold Substituted at h
  split_ifs at h with hsing
  · rw [h.1, freeTVars_of_isMonoSingular hsing]
    simp
  · simpa using h.mem_freeTVars w

lemma Substituted.transparent {t u : MonoType} (h : Substituted L false (renameBy ρ) t u) (ht : t.Transparent) :
    u.Transparent := by
  unfold Substituted at h
  split_ifs at h
  · rwa [h.1]
  · exact h.transparent ht

lemma Substituted.transitive {t u : MonoType} (himage : ∀ x t, s x = some t → ∃ y, t = .tvar y ∧ s y = none)
    (h : Substituted L false s t u) : Substituted L true s t u := by
  unfold Substituted at h ⊢
  split_ifs at h ⊢
  · exact h
  · exact h.transitive himage

lemma Substituted.congr {s' : TypeSubst} {t u : MonoType} (heq : ∀ x ∈ t.fv, s x = s' x)
    (h : Substituted L false s t u) : Substituted L false s' t u := by
  unfold Substituted at h ⊢
  split_ifs at h ⊢
  · exact ⟨h.1, fun x hx => heq x hx ▸ h.2 x hx⟩
  · exact h.congr fun x hx _ => heq x hx

lemma clear_of_unmapped {bound : List Bytes} {t u : MonoType} (h : Replaced L true (fun _ => none) bound t u) :
    ∀ cut, Clear (fun _ => none) cut bound bound t := by
  induction h with
  | bound hx => exact fun cut => .bound hx (Or.inr rfl)
  | free hx hs => exact fun cut => .free hx hx rfl
  | once htr => cases htr
  | resolved _ _ hs => cases hs
  | node ht _ hlen _ _ ih =>
    refine fun cut => .node ht (fun x _ hb => ⟨hb, rfl⟩) fun c hc => ?_
    obtain ⟨v, hv⟩ := exists_mem_zip hlen hc
    exact ih (c, v) hv _

/-- A type under other names is left as it is if it is gone through once more. -/
lemma Substituted.again {t u : MonoType} (h : Substituted L false (renameBy ρ) t u) :
    Substituted L false (fun _ => none) u u ∧ ∃ n, substitute L n (fun _ => none) u = some u := by
  have hu : Substituted L false (fun _ => none) u u := by
    unfold Substituted at h ⊢
    split_ifs with hsing
    · exact ⟨rfl, fun _ _ => rfl⟩
    · split_ifs at h with ht
      · exact absurd (h.1 ▸ ht) hsing
      · exact h.remade.2 []
  refine ⟨hu, ?_⟩
  have htrans := hu.transitive fun _ _ hs => by cases hs
  refine exists_substitute htrans ?_
  unfold Substituted at htrans
  unfold NoCapture
  split_ifs at htrans ⊢
  · exact htrans.2
  · exact clear_of_unmapped htrans []

end

/-! ### The types of a subject -/

namespace Subject

variable {x y : Subject}

lemma mem_foldl_addConstraint [DecidableEq MonoType] {c : Constraint} {cs r : List Constraint} :
    c ∈ cs.foldl addConstraint r ↔ c ∈ r ∨ c ∈ cs := by
  induction cs generalizing r with
  | nil => simp
  | cons d cs ih =>
    rw [List.foldl_cons, ih, addConstraint]
    split_ifs with hd
    · grind
    · grind

lemma substitute_constraint {n : ℕ} {s : TypeSubst} {c d : Constraint} :
    c.substitute L n s = some d ↔
      d.name = c.name ∧ c.arguments.mapM (Lang.substitute L n s) = some d.arguments := by
  rw [Constraint.substitute, Option.map_eq_some_iff]
  constructor
  · rintro ⟨ts, hts, rfl⟩
    exact ⟨rfl, hts⟩
  · rintro ⟨hname, hts⟩
    exact ⟨_, hts, by rw [← hname]⟩

lemma forall₂_flatMap {α β γ δ : Type} {R : α → β → Prop} {S : γ → δ → Prop} {f : α → List γ} {g : β → List δ}
    (hRS : ∀ a b, R a b → List.Forall₂ S (f a) (g b)) {as : List α} {bs : List β} (h : List.Forall₂ R as bs) :
    List.Forall₂ S (as.flatMap f) (bs.flatMap g) := by
  induction h with
  | nil => exact .nil
  | cons hab _ ih =>
    rw [List.flatMap_cons, List.flatMap_cons]
    exact List.rel_append (hRS _ _ hab) ih

/-- The types of the result are those that were found for the types of the argument. -/
lemma forall₂_types [DecidableEq MonoType] {n : ℕ} {s : TypeSubst} (h : x.substitute L n s = some y) :
    ∃ us, List.Forall₂ (fun t u => Lang.substitute L n s t = some u) x.types us ∧ ∀ u, u ∈ us ↔ u ∈ y.types := by
  have hconstraint : ∀ c d : Constraint, c.substitute L n s = some d →
      List.Forall₂ (fun t u => Lang.substitute L n s t = some u) c.arguments d.arguments := fun c d h =>
    mapM_eq_some.mp (substitute_constraint.mp h).2
  cases x with
  | type t =>
    obtain ⟨u, hu, rfl⟩ := Option.map_eq_some_iff.mp h
    exact ⟨[u], .cons hu .nil, fun _ => Iff.rfl⟩
  | constraint c =>
    obtain ⟨d, hd, rfl⟩ := Option.map_eq_some_iff.mp h
    exact ⟨d.arguments, hconstraint c d hd, fun _ => Iff.rfl⟩
  | qual q =>
    obtain ⟨r, hr, rfl⟩ := Option.map_eq_some_iff.mp h
    simp only [QualType.substitute, Option.bind_eq_bind, Option.bind_eq_some_iff] at hr
    obtain ⟨cs, hcs, u, hu, hr⟩ := hr
    cases hr
    refine ⟨cs.flatMap Constraint.arguments ++ [u], List.rel_append ?_ (.cons hu .nil), fun v => ?_⟩
    · exact forall₂_flatMap hconstraint (mapM_eq_some.mp hcs)
    · simp only [types, List.mem_append, List.mem_flatMap, mem_foldl_addConstraint, List.not_mem_nil, false_or]

lemma types_of_substitute [DecidableEq MonoType] {n : ℕ} {s : TypeSubst} (h : x.substitute L n s = some y) :
    (∀ t ∈ x.types, ∃ u ∈ y.types, Lang.substitute L n s t = some u) ∧
      ∀ u ∈ y.types, ∃ t ∈ x.types, Lang.substitute L n s t = some u := by
  obtain ⟨us, hus, hmem⟩ := forall₂_types h
  refine ⟨fun t ht => ?_, fun u hu => exists_of_forall₂ hus ((hmem u).mpr hu)⟩
  obtain ⟨u, hu, hsub⟩ := exists_of_forall₂ hus.flip ht
  exact ⟨u, (hmem u).mp hu, hsub⟩

lemma exists_substitute [DecidableEq MonoType] {n : ℕ} {s : TypeSubst}
    (h : ∀ t ∈ x.types, ∃ u, Lang.substitute L n s t = some u) : ∃ y, x.substitute L n s = some y := by
  have hconstraint : ∀ c : Constraint, (∀ t ∈ c.arguments, ∃ u, Lang.substitute L n s t = some u) →
      ∃ d, c.substitute L n s = some d := by
    intro c hc
    obtain ⟨ts, hts⟩ := exists_mapM hc
    exact ⟨_, Option.map_eq_some_iff.mpr ⟨ts, hts, rfl⟩⟩
  cases x with
  | type t =>
    obtain ⟨u, hu⟩ := h t List.mem_cons_self
    exact ⟨.type u, Option.map_eq_some_iff.mpr ⟨u, hu, rfl⟩⟩
  | constraint c =>
    obtain ⟨d, hd⟩ := hconstraint c h
    exact ⟨.constraint d, Option.map_eq_some_iff.mpr ⟨d, hd, rfl⟩⟩
  | qual q =>
    obtain ⟨u, hu⟩ := h q.monoType (List.mem_append_right _ List.mem_cons_self)
    obtain ⟨cs, hcs⟩ := exists_mapM fun c hc => hconstraint c fun t ht =>
      h t (List.mem_append_left _ (List.mem_flatMap.mpr ⟨c, hc, ht⟩))
    refine ⟨.qual ⟨cs.foldl addConstraint [], u⟩, Option.map_eq_some_iff.mpr ⟨_, ?_, rfl⟩⟩
    simp only [QualType.substitute, hcs, hu]
    rfl

/-! ### New names of a subject -/

/-- The canonical name for a variable's place. -/
def newName (x : Subject) (v : Bytes) : Bytes :=
  match canonicalNameSubst x.names v with
  | some (.tvar w) => w
  | _ => v

lemma newName_of_getElem? {v : Bytes} {i : ℕ} (h : x.names[i]? = some v) : x.newName v = canonicalName i := by
  rw [newName, canonicalNameSubst_of_getElem? h]
  split_ifs with hv
  · exact hv
  · rfl

lemma newName_of_notMem {v : Bytes} (h : v ∉ x.names) : x.newName v = v := by
  rw [newName, canonicalNameSubst_of_notMem h]

lemma renameBy_newName (x : Subject) : renameBy x.newName = canonicalNameSubst x.names := by
  funext v
  by_cases hv : v ∈ x.names
  · obtain ⟨i, hi⟩ := List.mem_iff_getElem?.mp hv
    rw [renameBy, newName_of_getElem? hi, canonicalNameSubst_of_getElem? hi]
    simp only [eq_comm]
  · rw [renameBy, newName_of_notMem hv, canonicalNameSubst_of_notMem hv, if_pos rfl]

/-- Where the new names are apart, they are not mapped. -/
lemma NamesApart.image (h : x.NamesApart) : ∀ v t, canonicalNameSubst x.names v = some t →
    ∃ w, t = .tvar w ∧ canonicalNameSubst x.names w = none := by
  intro v t ht
  obtain ⟨i, hi, hne, rfl⟩ := canonicalNameSubst_eq_some.mp ht
  exact ⟨_, rfl, canonicalNameSubst_of_notMem fun hmem => h i v hi hne.symm (mem_fv_of_mem_names hmem)⟩

lemma NamesApart.injOn (h : x.NamesApart) : Set.InjOn x.newName x.fv := by
  have hname : ∀ {v w}, v ∈ x.names → w ∈ x.fv → x.newName v = x.newName w → v = w := by
    intro v w hv hw heq
    obtain ⟨i, hi⟩ := List.mem_iff_getElem?.mp hv
    rw [newName_of_getElem? hi] at heq
    by_cases hwn : w ∈ x.names
    · obtain ⟨j, hj⟩ := List.mem_iff_getElem?.mp hwn
      rw [newName_of_getElem? hj] at heq
      obtain rfl := canonicalName_injective heq
      exact Option.some.inj (hi.symm.trans hj)
    · rw [newName_of_notMem hwn] at heq
      by_contra hne
      exact h i v hi (fun hc => hne (hc.symm.trans heq)) (heq ▸ hw)
  intro v hv w hw heq
  by_cases hvn : v ∈ x.names
  · exact hname hvn hw heq
  by_cases hwn : w ∈ x.names
  · exact (hname hwn hv heq.symm).symm
  · rwa [newName_of_notMem hvn, newName_of_notMem hwn] at heq

/-- What can be renamed is. -/
lemma CanBeRenamed.substituted (h : x.CanBeRenamed L) {n : ℕ} {t u : MonoType} (ht : t ∈ x.types)
    (hrun : Lang.substitute L n (canonicalNameSubst x.names) t = some u) :
    Substituted L false (canonicalNameSubst x.names) t u := by
  obtain ⟨hclear, v, hv⟩ := h.2 t ht
  obtain ⟨m, hm⟩ := Lang.exists_substitute (hv.transitive h.1.image) hclear
  rwa [substitute_unique hrun hm]

lemma CanBeRenamed.exists_substitute (h : x.CanBeRenamed L) : ∃ n ρ, Set.InjOn ρ x.fv ∧ ∀ t ∈ x.types,
    ∃ u, Lang.substitute L n (canonicalNameSubst x.names) t = some u ∧ Substituted L false (renameBy ρ) t u := by
  obtain ⟨hapart, htypes⟩ := h
  have hrun : ∀ t ∈ x.types, ∃ n u, Lang.substitute L n (canonicalNameSubst x.names) t = some u ∧
      Substituted L false (canonicalNameSubst x.names) t u := by
    intro t ht
    obtain ⟨hclear, u, hu⟩ := htypes t ht
    obtain ⟨n, hn⟩ := Lang.exists_substitute (hu.transitive hapart.image) hclear
    exact ⟨n, u, hn, hu⟩
  obtain ⟨n, hn⟩ := exists_bound hrun fun t n m ⟨u, hu, hsub⟩ hnm => ⟨u, substitute_mono hu hnm, hsub⟩
  refine ⟨n, x.newName, hapart.injOn, fun t ht => ?_⟩
  rw [renameBy_newName]
  exact hn t ht

/-- Where every free variable of a renamed subject can be seen, its new names are apart, and it is found by putting
them in place of the old ones once. -/
lemma canBeRenamed_of_substitute {n : ℕ} {ρ : Bytes → Bytes} (hρ : Set.InjOn ρ x.fv)
    (htypes : ∀ t ∈ x.types, ∃ u, Lang.substitute L n (canonicalNameSubst x.names) t = some u ∧
      Substituted L false (renameBy ρ) t u) (htrans : ∀ t ∈ x.types, t.Transparent) : x.CanBeRenamed L := by
  have himage : ∀ v t, canonicalNameSubst x.names v = some t → ∃ w, t = .tvar w := by
    intro v t ht
    obtain ⟨i, -, -, rfl⟩ := canonicalNameSubst_eq_some.mp ht
    exact ⟨_, rfl⟩
  have hend : ∀ t ∈ x.types, ¬ t.isMonoSingular → ∀ v ∈ t.fv, EndsAt (canonicalNameSubst x.names) v (ρ v) := by
    intro t ht hsing v hv
    obtain ⟨u, hrun, hu⟩ := htypes t ht
    rw [Lang.substitute, if_neg hsing, ← TypeSubst.cut_nil (canonicalNameSubst x.names)] at hrun
    rw [Substituted, if_neg hsing] at hu
    exact hu.endsAt himage (List.Subset.refl _) (htrans t ht) hrun v hv List.not_mem_nil
  -- a variable that is free in a type that is left alone is counted in another one, or keeps its name
  have hends : ∀ v ∈ x.fv, EndsAt (canonicalNameSubst x.names) v (ρ v) := by
    rintro v ⟨t, ht, hv⟩
    by_cases hsing : t.isMonoSingular
    · obtain ⟨u, -, hu⟩ := htypes t ht
      rw [Substituted, if_pos hsing] at hu
      by_cases hvn : v ∈ x.names
      · obtain ⟨t', ht', hv'⟩ := mem_names.mp hvn
        refine hend t' ht' (fun hsing' => ?_) v (freeTVars_subset_fv t' hv')
        rw [freeTVars_of_isMonoSingular hsing'] at hv'
        cases hv'
      · rw [renameBy_eq_none.mp (hu.2 v hv)]
        exact .here (canonicalNameSubst_of_notMem hvn)
    · exact hend t ht hsing v hv
  have hapart : x.NamesApart := by
    intro i v hi hne hmem
    have hs : canonicalNameSubst x.names v = some (.tvar (canonicalName i)) :=
      canonicalNameSubst_eq_some.mpr ⟨i, hi, hne.symm, rfl⟩
    have hv := mem_fv_of_mem_names (List.mem_of_getElem? hi)
    have heq := (hends v hv).unique (.step hs (hends _ hmem))
    exact hne (hρ hv hmem heq).symm
  have hsame : ∀ v ∈ x.fv, renameBy ρ v = canonicalNameSubst x.names v := by
    intro v hv
    cases hs : canonicalNameSubst x.names v with
    | none => exact renameBy_eq_none.mpr ((hends v hv).unique (.here hs))
    | some t =>
      obtain ⟨w, rfl, hw⟩ := hapart.image v t hs
      obtain ⟨i, -, hne, heq⟩ := canonicalNameSubst_eq_some.mp hs
      cases heq
      have hρv := (hends v hv).unique (.step hs (.here hw))
      rw [renameBy, if_neg (hρv ▸ hne.symm), hρv]
  refine ⟨hapart, fun t ht => ?_⟩
  obtain ⟨u, hrun, hu⟩ := htypes t ht
  have hu' := hu.congr fun v hv => hsame v ⟨t, ht, hv⟩
  exact ⟨(substituted_iff_noCapture hrun).mp (hu'.transitive hapart.image), u, hu'⟩

/-! ### The pass renames -/

/-- Numbered names come before the last letters. -/
lemma pairwise_canonicalName {k : ℕ} : ((List.range k).map canonicalName).Pairwise stringLe ↔ k ≤ 26 := by
  constructor
  · intro h
    by_contra hk
    have hle := List.pairwise_iff_getElem.mp h 25 26 (by simp; omega) (by simp; omega) (by decide)
    rw [List.getElem_map, List.getElem_map, List.getElem_range, List.getElem_range] at hle
    exact absurd hle (by decide)
  · intro hk
    have hall : ((List.range 26).map canonicalName).Pairwise stringLe := by decide
    refine hall.sublist (List.Sublist.map _ ?_)
    exact List.range_sublist.mpr hk

section

variable [DecidableEq MonoType]

lemma isRenamed_iff : (∃ y, x.IsRenamed L y) ↔ ∃ n ρ, Set.InjOn ρ x.fv ∧ ∀ t ∈ x.types,
    ∃ u, Lang.substitute L n (canonicalNameSubst x.names) t = some u ∧ Substituted L false (renameBy ρ) t u := by
  constructor
  · rintro ⟨y, n, ρ, -, hρ, htypes⟩
    exact ⟨n, ρ, hρ, fun t ht => (htypes t ht).imp fun u hu => hu.2⟩
  · rintro ⟨n, ρ, hρ, htypes⟩
    obtain ⟨y, hy⟩ := exists_substitute fun t ht => (htypes t ht).imp fun u hu => hu.1
    refine ⟨y, n, ρ, hy, hρ, fun t ht => ?_⟩
    obtain ⟨u, hu, hsub⟩ := htypes t ht
    obtain ⟨v, hv, htv⟩ := (types_of_substitute hy).1 t ht
    obtain rfl := substitute_unique hu htv
    exact ⟨u, hv, hu, hsub⟩

/-- The names of the result are the canonical ones. -/
lemma CanBeRenamed.names_perm (h : x.CanBeRenamed L) {n : ℕ} (hy : x.simplifyVarNames L n = some y) :
    y.names.Perm ((List.range x.names.length).map canonicalName) := by
  obtain ⟨hfound, hfrom⟩ := types_of_substitute hy
  have hfree : ∀ {t u w}, t ∈ x.types → Lang.substitute L n (canonicalNameSubst x.names) t = some u →
      (w ∈ u.freeTVars ↔ ∃ v ∈ t.freeTVars, x.newName v = w) := by
    intro t u w ht hrun
    have hsub := h.substituted ht hrun
    rw [← renameBy_newName] at hsub
    exact hsub.mem_freeTVars
  rw [List.perm_ext_iff_of_nodup y.nodup_names (List.nodup_range.map canonicalName_injective)]
  intro w
  rw [List.mem_map]
  simp only [List.mem_range]
  constructor
  · intro hw
    obtain ⟨u, hu, hw⟩ := mem_names.mp hw
    obtain ⟨t, ht, hrun⟩ := hfrom u hu
    obtain ⟨v, hv, rfl⟩ := (hfree ht hrun).mp hw
    obtain ⟨i, hi⟩ := List.mem_iff_getElem?.mp (mem_names.mpr ⟨t, ht, hv⟩)
    exact ⟨i, (List.getElem?_eq_some_iff.mp hi).1, (newName_of_getElem? hi).symm⟩
  · rintro ⟨i, hi, rfl⟩
    have hname := List.getElem?_eq_getElem hi
    obtain ⟨t, ht, hv⟩ := mem_names.mp (List.getElem_mem hi)
    obtain ⟨u, hu, hrun⟩ := hfound t ht
    exact mem_names.mpr ⟨u, hu, (hfree ht hrun).mpr ⟨_, hv, newName_of_getElem? hname⟩⟩

/-- Where letters are enough, the names of the result are simple already. -/
lemma CanBeRenamed.isRenamed_again (h : x.CanBeRenamed L) (hletters : x.names.length ≤ 26) {n : ℕ}
    (hy : x.simplifyVarNames L n = some y) : ∃ z, y.IsRenamed L z := by
  have hnames : y.names = (List.range x.names.length).map canonicalName :=
    (h.names_perm hy).eq_of_pairwise (fun a b _ _ => antisymm_of stringLe) y.pairwise_names
      (pairwise_canonicalName.mpr hletters)
  have hnone : canonicalNameSubst y.names = fun _ => none := by
    funext v
    by_contra hv
    obtain ⟨t, ht⟩ := Option.ne_none_iff_exists'.mp hv
    obtain ⟨i, hi, hne, -⟩ := canonicalNameSubst_eq_some.mp ht
    rw [hnames, List.getElem?_map, Option.map_eq_some_iff] at hi
    obtain ⟨j, hj, rfl⟩ := hi
    obtain ⟨hlt, heq⟩ := List.getElem?_eq_some_iff.mp hj
    rw [List.getElem_range] at heq
    exact hne (congrArg canonicalName heq.symm)
  have hrun : ∀ u ∈ y.types, ∃ m, Lang.substitute L m (fun _ => none) u = some u ∧
      Substituted L false (fun _ => none) u u := by
    intro u hu
    obtain ⟨t, ht, hrun⟩ := (types_of_substitute hy).2 u hu
    have hsub := h.substituted ht hrun
    rw [← renameBy_newName] at hsub
    obtain ⟨hagain, m, hm⟩ := hsub.again
    exact ⟨m, hm, hagain⟩
  obtain ⟨m, hm⟩ := exists_bound hrun fun u m m' hu hm => ⟨substitute_mono hu.1 hm, hu.2⟩
  refine isRenamed_iff.mpr ⟨m, id, Set.injOn_id _, fun u hu => ⟨u, ?_, ?_⟩⟩
  · rw [hnone]
    exact (hm u hu).1
  · rw [show renameBy id = fun _ => none from funext fun _ => if_pos rfl]
    exact (hm u hu).2

end

end Subject

/-- The names of a type, a constraint or a qualified type are simplified where no new name is in use for another
variable, nothing is captured under a new name, and letters are enough; and only there, but that the representation of a
primitive type may have variables that are not renamed. -/
theorem isSimplified_iff [DecidableEq MonoType] (L : Layout) (x : Subject) :
    (x.CanBeRenamed L ∧ x.names.length ≤ 26 → x.IsSimplified L) ∧
      ((∀ t ∈ x.types, t.Transparent) → x.IsSimplified L → x.CanBeRenamed L ∧ x.names.length ≤ 26) := by
  constructor
  · rintro ⟨h, hletters⟩
    obtain ⟨y, hy⟩ := Subject.isRenamed_iff.mpr h.exists_substitute
    obtain ⟨z, hz⟩ := h.isRenamed_again hletters hy.choose_spec.choose_spec.1
    exact ⟨y, z, hy, hz⟩
  · rintro htrans ⟨y, z, hy, hz⟩
    have hx : x.CanBeRenamed L := by
      obtain ⟨n, ρ, hρ, htypes⟩ := Subject.isRenamed_iff.mp ⟨y, hy⟩
      exact Subject.canBeRenamed_of_substitute hρ htypes htrans
    refine ⟨hx, ?_⟩
    obtain ⟨n, -, hn, -⟩ := hy
    have hytrans : ∀ u ∈ y.types, u.Transparent := by
      intro u hu
      obtain ⟨t, ht, hrun⟩ := (Subject.types_of_substitute hn).2 u hu
      have hsub := hx.substituted ht hrun
      rw [← Subject.renameBy_newName] at hsub
      exact hsub.transparent (htrans t ht)
    obtain ⟨m, ρ, hρ, htypes⟩ := Subject.isRenamed_iff.mp ⟨z, hz⟩
    have hapart := (Subject.canBeRenamed_of_substitute hρ htypes hytrans).1
    have hperm := hx.names_perm hn
    -- every canonical name is at its own place, so that they are in order
    have hnames : y.names = (List.range x.names.length).map canonicalName := by
      refine List.ext_getElem hperm.length_eq fun i hi hi' => ?_
      rw [List.getElem_map, List.getElem_range]
      by_contra hne
      refine hapart i _ (List.getElem?_eq_getElem hi) (Ne.symm hne) (Subject.mem_fv_of_mem_names (hperm.mem_iff.mpr ?_))
      rw [List.length_map, List.length_range] at hi'
      exact List.mem_map.mpr ⟨i, List.mem_range.mpr hi', rfl⟩
    exact Subject.pairwise_canonicalName.mp (hnames ▸ y.pairwise_names)

/-- In `b -> c` the name for `c` is `b`, and then `a`. -/
theorem not_isSimplified : ¬ ∀ (_ : DecidableEq MonoType) (L : Layout) (x : Subject), x.IsSimplified L := by
  intro h
  let t : MonoType := .func (.tvar [98]) (.tvar [99])
  have htrans : ∀ u ∈ (Subject.type t).types, u.Transparent := by
    have hvar : ∀ v, (MonoType.tvar v).Transparent := fun v => .mk rfl nofun
    intro u hu
    obtain rfl := List.mem_singleton.mp hu
    refine .mk rfl fun c hc => ?_
    rcases List.mem_cons.mp hc with rfl | hc
    · exact hvar [98]
    · obtain rfl := List.mem_singleton.mp hc
      exact hvar [99]
  have hdec : DecidableEq MonoType := Classical.decEq MonoType
  obtain ⟨y, -, hy, -⟩ := h hdec ⟨fun _ => none, fun _ => none⟩ (.type t)
  obtain ⟨n, ρ, hρ, htypes⟩ := Subject.isRenamed_iff.mp ⟨y, hy⟩
  have hapart := (Subject.canBeRenamed_of_substitute hρ htypes htrans).1
  exact hapart 1 [99] (by decide) (by decide) ⟨t, List.mem_cons_self, by decide⟩

end Hobbes.Lang
