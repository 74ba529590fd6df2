import Hobbes.Lang.Children
import Mathlib.Data.Set.Finite.Basic

/-!
# Substitution under binders

What a substitution is to put in place of the free variables of a type, and when the compiler's substitution does
so. It goes on in what it has put in place of a variable, with what is left of the substitution under the binders
around it, and does not rename a binder.
-/

namespace Hobbes.Lang

open Core

/-! ### What is to be replaced -/

/-- The free occurrences of mapped variables are replaced, and nothing that is put in their place is captured by one
of the names that are bound around them. What is put there is the variable's image, or what this becomes in turn if
the substitution is transitive. -/
inductive Replaced (L : Layout) (transitive : Bool) (s : TypeSubst) : List Bytes → MonoType → MonoType → Prop where
  | bound {bound : List Bytes} {x : Bytes} (hx : x ∈ bound) : Replaced L transitive s bound (.tvar x) (.tvar x)
  | free {bound : List Bytes} {x : Bytes} (hx : x ∉ bound) (hs : s x = none) :
      Replaced L transitive s bound (.tvar x) (.tvar x)
  | once {bound : List Bytes} {x : Bytes} {u : MonoType} (htr : transitive = false) (hx : x ∉ bound)
      (hs : s x = some u) (hfresh : ∀ y ∈ u.fv, y ∉ bound) : Replaced L transitive s bound (.tvar x) u
  | resolved {bound : List Bytes} {x : Bytes} {t u : MonoType} (htr : transitive = true) (hx : x ∉ bound)
      (hs : s x = some t) (h : Replaced L transitive s [] t u) (hfresh : ∀ y ∈ u.fv, y ∉ bound) :
      Replaced L transitive s bound (.tvar x) u
  | node {bound : List Bytes} {t u : MonoType} {us : List MonoType} (ht : ∀ x, t ≠ .tvar x)
      (hrepr : ∀ x ∈ t.reprVars, x ∉ bound → s x = none) (hlen : us.length = t.children.length)
      (h : ∀ p ∈ t.children.zip us, Replaced L transitive s (p.1.binds ++ bound) p.1.type p.2)
      (hu : t.remake L us = some u) : Replaced L transitive s bound t u

/-- A type without free variables that the compiler sees is left as it is. -/
def Substituted (L : Layout) (transitive : Bool) (s : TypeSubst) (t u : MonoType) : Prop :=
  if t.isMonoSingular then u = t ∧ ∀ x ∈ t.fv, s x = none else Replaced L transitive s [] t u

/-! ### When the compiler does that -/

/-- Expanding the variables of a type meets nothing that is captured: `cut` are the names by whose binders the
substitution has been cut on the way, `around` all that are bound on the way, and `bound` those of them that are
bound in the type or image that is being read. -/
inductive Clear (s : TypeSubst) : List Bytes → List Bytes → List Bytes → MonoType → Prop where
  | bound {cut around bound : List Bytes} {x : Bytes} (hx : x ∈ bound) (h : x ∈ cut ∨ s x = none) :
      Clear s cut around bound (.tvar x)
  | free {cut around bound : List Bytes} {x : Bytes} (hx : x ∉ bound) (ha : x ∉ around) (hs : s x = none) :
      Clear s cut around bound (.tvar x)
  | mapped {cut around bound : List Bytes} {x : Bytes} {t : MonoType} (hx : x ∉ bound) (hc : x ∉ cut)
      (hs : s x = some t) (h : Clear s cut around [] t) : Clear s cut around bound (.tvar x)
  | node {cut around bound : List Bytes} {t : MonoType} (ht : ∀ x, t ≠ .tvar x)
      (hrepr : ∀ x ∈ t.reprVars, x ∉ bound → x ∉ around ∧ s x = none)
      (h : ∀ c ∈ t.children, Clear s (c.cuts ++ cut) (c.binds ++ around) (c.binds ++ bound) c.type) :
      Clear s cut around bound t

/-- Nothing is captured, and nothing is left out. -/
def NoCapture (s : TypeSubst) (t : MonoType) : Prop :=
  if t.isMonoSingular then ∀ x ∈ t.fv, s x = none else Clear s [] [] [] t

/-! ### The run of the compiler -/

section

variable {L : Layout} {s : TypeSubst}

lemma cut_eq_none_iff {ns : List Bytes} {x : Bytes} : s.cut ns x = none ↔ x ∈ ns ∨ s x = none := by
  unfold TypeSubst.cut
  split_ifs with hx <;> simp [hx]

lemma cut_of_notMem {ns : List Bytes} {x : Bytes} (hx : x ∉ ns) : s.cut ns x = s x := if_neg hx

lemma cut_of_mem {ns : List Bytes} {x : Bytes} (hx : x ∈ ns) : s.cut ns x = none := if_pos hx

/-- A variable is either replaced by what its image becomes, or left. -/
lemma substituteF_tvar_eq_some {n : ℕ} {x : Bytes} {u : MonoType} (h : substituteF L (n + 1) s (.tvar x) = some u) :
    s x = none ∧ u = .tvar x ∨ ∃ t, s x = some t ∧ substituteF L n s t = some u := by
  cases hs : s x with
  | none =>
    rw [substituteF, hs] at h
    exact Or.inl ⟨rfl, (Option.some.inj h).symm⟩
  | some t =>
    rw [substituteF_tvar L n hs] at h
    exact Or.inr ⟨t, rfl, h⟩

/-- What was found for the parts of a type. -/
lemma substituteF_node {n : ℕ} {t u : MonoType} (ht : ∀ x, t ≠ .tvar x) (h : substituteF L (n + 1) s t = some u) :
    ∃ us : List MonoType, us.length = t.children.length ∧ t.remake L us = some u ∧
      ∀ p ∈ t.children.zip us, substituteF L n (s.cut p.1.cuts) p.1.type = some p.2 := by
  rw [substituteF_succ L n s fun x hx => absurd hx (ht x)] at h
  obtain ⟨us, hus, hu⟩ := Option.bind_eq_some_iff.mp h
  rw [mapM_eq_some, List.forall₂_iff_zip] at hus
  exact ⟨us, hus.1.symm, hu, fun p hp => hus.2 hp⟩

/-- A variable that is left over is not mapped. -/
lemma substituteF_eq_tvar {n : ℕ} {t : MonoType} {x : Bytes} (h : substituteF L n s t = some (.tvar x)) :
    s x = none := by
  induction n generalizing t with
  | zero => cases t <;> cases h
  | succ n ih =>
    by_cases ht : ∃ y, t = .tvar y
    · obtain ⟨y, rfl⟩ := ht
      rcases substituteF_tvar_eq_some h with ⟨hs, hu⟩ | ⟨t, -, ht⟩
      · cases hu
        exact hs
      · exact ih ht
    · push Not at ht
      obtain ⟨us, hlen, hu, -⟩ := substituteF_node ht h
      exact absurd ((remake_spec hlen hu).1 x rfl) (ht x)

/-- A depth that is enough for each of a list is one that is enough for all. -/
lemma exists_bound {α : Type} {l : List α} {P : α → ℕ → Prop} (h : ∀ a ∈ l, ∃ n, P a n)
    (hmono : ∀ a n m, P a n → n ≤ m → P a m) : ∃ n, ∀ a ∈ l, P a n := by
  induction l with
  | nil => exact ⟨0, by simp⟩
  | cons a l ih =>
    obtain ⟨n, hn⟩ := h a List.mem_cons_self
    obtain ⟨m, hm⟩ := ih fun b hb => h b (List.mem_cons_of_mem a hb)
    refine ⟨max n m, List.forall_mem_cons.mpr ⟨hmono a n _ hn (Nat.le_max_left n m), fun b hb => ?_⟩⟩
    exact hmono b m _ (hm b hb) (Nat.le_max_right n m)

lemma exists_mem_zip {α β : Type} {l : List α} {l' : List β} (h : l'.length = l.length) {a : α} (ha : a ∈ l) :
    ∃ b, (a, b) ∈ l.zip l' := by
  obtain ⟨i, hi, rfl⟩ := List.mem_iff_getElem.mp ha
  have hi' : i < l'.length := h ▸ hi
  exact ⟨l'[i], List.mem_iff_getElem.mpr ⟨i, by rw [List.length_zip]; omega, by simp⟩⟩

lemma clear_tvar_of_bound {cut around bound : List Bytes} {x : Bytes} (hx : x ∈ bound) :
    Clear s cut around bound (.tvar x) ↔ x ∈ cut ∨ s x = none := by
  constructor
  · intro h
    cases h with
    | bound _ h => exact h
    | free hx' => exact absurd hx hx'
    | mapped hx' => exact absurd hx hx'
    | node ht => exact absurd rfl (ht x)
  · exact .bound hx

lemma clear_tvar_of_notMem {cut around bound : List Bytes} {x : Bytes} (hx : x ∉ bound) :
    Clear s cut around bound (.tvar x) ↔
      x ∉ around ∧ s x = none ∨ x ∉ cut ∧ ∃ t, s x = some t ∧ Clear s cut around [] t := by
  constructor
  · intro h
    cases h with
    | bound hx' => exact absurd hx' hx
    | free _ ha hs => exact Or.inl ⟨ha, hs⟩
    | mapped _ hc hs h => exact Or.inr ⟨hc, _, hs, h⟩
    | node ht => exact absurd rfl (ht x)
  · rintro (⟨ha, hs⟩ | ⟨hc, t, hs, h⟩)
    · exact .free hx ha hs
    · exact .mapped hx hc hs h

lemma clear_node {cut around bound : List Bytes} {t : MonoType} (ht : ∀ x, t ≠ .tvar x) :
    Clear s cut around bound t ↔ (∀ x ∈ t.reprVars, x ∉ bound → x ∉ around ∧ s x = none) ∧
      ∀ c ∈ t.children, Clear s (c.cuts ++ cut) (c.binds ++ around) (c.binds ++ bound) c.type := by
  constructor
  · intro h
    cases h with
    | node _ hrepr h => exact ⟨hrepr, h⟩
    | _ => exact absurd rfl (ht _)
  · rintro ⟨hrepr, h⟩
    exact .node ht hrepr h

/-- A result does not depend on how deep the calls may go. -/
lemma substituteF_mono {n m : ℕ} {s : TypeSubst} {t u : MonoType} (h : substituteF L n s t = some u) (hnm : n ≤ m) :
    substituteF L m s t = some u := by
  induction n generalizing m s t u with
  | zero => cases t <;> cases h
  | succ n ih =>
    obtain ⟨m, rfl⟩ : ∃ k, m = k + 1 := ⟨m - 1, by omega⟩
    have hnm : n ≤ m := Nat.le_of_succ_le_succ hnm
    by_cases ht : ∃ x, t = .tvar x
    · obtain ⟨x, rfl⟩ := ht
      rcases substituteF_tvar_eq_some h with ⟨hs, rfl⟩ | ⟨t, hs, ht⟩
      · rw [substituteF, hs]
      · rw [substituteF_tvar L m hs, ih ht hnm]
    · push Not at ht
      obtain ⟨us, hlen, hu, hparts⟩ := substituteF_node ht h
      have hmap : (t.children.mapM fun c => substituteF L m (s.cut c.cuts) c.type) = some us := by
        rw [mapM_eq_some, List.forall₂_iff_zip]
        exact ⟨hlen.symm, fun hp => ih (hparts _ hp) hnm⟩
      rw [substituteF_succ L m _ fun x hx => absurd hx (ht x), hmap, Option.bind_some, hu]

/-- What has been put in place of the variables is what is to be put there just if nothing that was met on the way
was captured. By induction on the depth of the calls; the names around a part are those around the type and those that
the type binds over it. -/
lemma replaced_iff_clear {n : ℕ} : ∀ {cut around bound : List Bytes} {t u : MonoType}, cut ⊆ around →
    bound ⊆ around → substituteF L n (s.cut cut) t = some u →
    (Replaced L true s bound t u ∧ (∀ x ∈ u.fv, x ∈ around → x ∈ bound) ↔ Clear s cut around bound t) := by
  induction n with
  | zero =>
    intro cut around bound t u _ _ h
    cases t <;> cases h
  | succ n ih =>
    intro cut around bound t u hcut hbound h
    by_cases ht : ∃ x, t = .tvar x
    · obtain ⟨x, rfl⟩ := ht
      by_cases hx : x ∈ bound
      · rw [clear_tvar_of_bound hx]
        rcases substituteF_tvar_eq_some h with ⟨hs, rfl⟩ | ⟨t, hs, ht⟩
        · refine iff_of_true ⟨.bound hx, fun y hy _ => ?_⟩ (cut_eq_none_iff.mp hs)
          obtain rfl := List.mem_singleton.mp hy
          exact hx
        · refine iff_of_false ?_ ?_
          · rintro ⟨hrep, -⟩
            cases hrep with
            | bound => exact absurd (substituteF_eq_tvar ht) (by rw [hs]; simp)
            | free hx' => exact hx' hx
            | once htr => cases htr
            | resolved _ hx' => exact hx' hx
            | node ht => exact ht x rfl
          · rw [← cut_eq_none_iff, hs]
            simp
      · rcases substituteF_tvar_eq_some h with ⟨hs, rfl⟩ | ⟨t, hs, ht⟩
        · -- the variable stays: a binder may have cut it off, and would capture it then
          rw [clear_tvar_of_notMem hx]
          constructor
          · rintro ⟨hrep, haround⟩
            have hxa : x ∉ around := fun ha => hx (haround x List.mem_cons_self ha)
            exact Or.inl ⟨hxa, (cut_eq_none_iff.mp hs).resolve_left fun hc => hxa (hcut hc)⟩
          · rintro (⟨hxa, hs'⟩ | ⟨hc, t, hs', -⟩)
            · refine ⟨.free hx hs', fun y hy ha => ?_⟩
              obtain rfl := List.mem_singleton.mp hy
              exact absurd ha hxa
            · rw [cut_of_notMem hc, hs'] at hs
              cases hs
        · have hxc : x ∉ cut := fun hc => by rw [cut_of_mem hc] at hs; cases hs
          rw [cut_of_notMem hxc] at hs
          have hclear := ih hcut (List.nil_subset around) ht
          rw [clear_tvar_of_notMem hx, or_iff_right fun h => by rw [hs] at h; cases h.2]
          constructor
          · rintro ⟨hrep, haround⟩
            cases hrep with
            | resolved _ _ hs' h' hfresh =>
              cases hs.symm.trans hs'
              exact ⟨hxc, t, hs, hclear.mp ⟨h', fun y hy ha => absurd (haround y hy ha) (hfresh y hy)⟩⟩
            | bound hx' => exact absurd hx' hx
            | free _ hs' => cases hs.symm.trans hs'
            | once htr => cases htr
            | node ht => exact absurd rfl (ht x)
          · rintro ⟨-, t', hs', h'⟩
            cases hs.symm.trans hs'
            obtain ⟨hrep, haround⟩ := hclear.mpr h'
            have hfresh : ∀ y ∈ u.fv, y ∉ around := fun y hy ha => List.not_mem_nil (haround y hy ha)
            exact ⟨.resolved rfl hx hs hrep fun y hy hb => hfresh y hy (hbound hb),
              fun y hy ha => absurd ha (hfresh y hy)⟩
    · push Not at ht
      obtain ⟨us, hlen, hu, hparts⟩ := substituteF_node ht h
      have hfv : ∀ y, y ∈ u.fv ↔ y ∈ t.reprVars ∨ ∃ p ∈ t.children.zip us, y ∈ p.2.fv ∧ y ∉ p.1.binds :=
        fun y => mem_fv_of_remake ht hlen hu
      have hpart : ∀ p ∈ t.children.zip us,
          (Replaced L true s (p.1.binds ++ bound) p.1.type p.2 ∧
            (∀ x ∈ p.2.fv, x ∈ p.1.binds ++ around → x ∈ p.1.binds ++ bound) ↔
            Clear s (p.1.cuts ++ cut) (p.1.binds ++ around) (p.1.binds ++ bound) p.1.type) := by
        intro p hp
        have hc : p.1 ∈ t.children := (List.of_mem_zip hp).1
        refine ih (List.append_subset.mpr ⟨?_, ?_⟩) (List.append_subset.mpr ⟨?_, ?_⟩) ?_
        · exact List.Subset.trans (cuts_subset_binds hc) (List.subset_append_left _ _)
        · exact List.Subset.trans hcut (List.subset_append_right _ _)
        · exact List.subset_append_left _ _
        · exact List.Subset.trans hbound (List.subset_append_right _ _)
        · rw [← TypeSubst.cut_cut]
          exact hparts p hp
      rw [clear_node ht]
      constructor
      · rintro ⟨hrep, haround⟩
        cases hrep with
        | node _ hrepr hlen' h' hu' =>
          obtain rfl := remake_injective hlen hlen' hu hu'
          refine ⟨fun x hx hb => ⟨fun ha => hb (haround x ((hfv x).mpr (Or.inl hx)) ha), hrepr x hx hb⟩, fun c hc => ?_⟩
          obtain ⟨v, hv⟩ := exists_mem_zip hlen hc
          refine (hpart (c, v) hv).mp ⟨h' (c, v) hv, fun x hx ha => ?_⟩
          by_cases hxb : x ∈ c.binds
          · exact List.mem_append_left _ hxb
          · exact List.mem_append_right _ (haround x ((hfv x).mpr (Or.inr ⟨(c, v), hv, hx, hxb⟩))
              ((List.mem_append.mp ha).resolve_left hxb))
        | _ => exact absurd rfl (ht _)
      · rintro ⟨hrepr, hclear⟩
        refine ⟨.node ht (fun x hx hb => (hrepr x hx hb).2) hlen (fun p hp => ?_) hu, fun x hx ha => ?_⟩
        · exact ((hpart p hp).mpr (hclear p.1 (List.of_mem_zip hp).1)).1
        · rcases (hfv x).mp hx with hx | ⟨p, hp, hx, hnb⟩
          · by_contra hb
            exact (hrepr x hx hb).1 ha
          · have := ((hpart p hp).mpr (hclear p.1 (List.of_mem_zip hp).1)).2 x hx (List.mem_append_right _ ha)
            exact (List.mem_append.mp this).resolve_left hnb

/-- Where nothing is captured, the type is found that is to be found. -/
lemma exists_substituteF {bound : List Bytes} {t u : MonoType} (h : Replaced L true s bound t u) :
    ∀ {cut around : List Bytes}, Clear s cut around bound t → ∃ n, substituteF L n (s.cut cut) t = some u := by
  induction h with
  | bound hx =>
    intro cut around hclear
    refine ⟨1, ?_⟩
    rw [substituteF, cut_eq_none_iff.mpr ((clear_tvar_of_bound hx).mp hclear)]
  | free hx hs =>
    intro cut around hclear
    refine ⟨1, ?_⟩
    rw [substituteF, cut_eq_none_iff.mpr (Or.inr hs)]
  | once htr => cases htr
  | resolved _ hx hs _ _ ih =>
    intro cut around hclear
    rcases (clear_tvar_of_notMem hx).mp hclear with ⟨-, hs'⟩ | ⟨hc, t, hs', hclear⟩
    · cases hs.symm.trans hs'
    · cases hs.symm.trans hs'
      obtain ⟨n, hn⟩ := ih hclear
      refine ⟨n + 1, ?_⟩
      rw [substituteF_tvar L n ((cut_of_notMem hc).trans hs), hn]
  | @node bound t u us ht hrepr hlen _ hu ih =>
    intro cut around hclear
    obtain ⟨-, hclear⟩ := (clear_node ht).mp hclear
    have hparts : ∀ p ∈ t.children.zip us, ∃ n, substituteF L n (s.cut (p.1.cuts ++ cut)) p.1.type = some p.2 :=
      fun p hp => ih p hp (hclear p.1 (List.of_mem_zip hp).1)
    obtain ⟨n, hn⟩ := exists_bound hparts fun p n m h hnm => substituteF_mono h hnm
    refine ⟨n + 1, ?_⟩
    have hmap : (t.children.mapM fun c => substituteF L n ((s.cut cut).cut c.cuts) c.type) = some us := by
      rw [mapM_eq_some, List.forall₂_iff_zip]
      refine ⟨hlen.symm, fun hp => ?_⟩
      rw [TypeSubst.cut_cut]
      exact hn _ hp
    rw [substituteF_succ L n _ fun x hx => absurd hx (ht x), hmap, Option.bind_some, hu]

/-! ### Free variables of the result -/

/-- `y` occurs free in what `x` is expanded to, after one step or more. -/
inductive Reaches (s : TypeSubst) : Bytes → Bytes → Prop where
  | image {x y : Bytes} {t : MonoType} (hs : s x = some t) (hy : y ∈ t.fv) : Reaches s x y
  | step {x y z : Bytes} {t : MonoType} (hs : s x = some t) (hy : y ∈ t.fv) (h : Reaches s y z) : Reaches s x z

lemma reaches_iff {x z : Bytes} {t : MonoType} (hs : s x = some t) :
    Reaches s x z ↔ z ∈ t.fv ∨ ∃ y ∈ t.fv, Reaches s y z := by
  constructor
  · intro h
    cases h with
    | image hs' hy =>
      cases hs.symm.trans hs'
      exact Or.inl hy
    | step hs' hy h =>
      cases hs.symm.trans hs'
      exact Or.inr ⟨_, hy, h⟩
  · rintro (hz | ⟨y, hy, h⟩)
    · exact .image hs hz
    · exact .step hs hy h

lemma Reaches.mapped {x y : Bytes} (h : Reaches s x y) : s x ≠ none := by
  cases h with
  | image hs => rw [hs]; simp
  | step hs => rw [hs]; simp

/-- The free variables of a type whose mapped variables have been resolved; none of them is one of the names around. -/
lemma mem_fv_replaced {bound : List Bytes} {t u : MonoType} (h : Replaced L true s bound t u) :
    (∀ z, z ∈ u.fv ↔ (z ∈ t.fv ∧ (z ∈ bound ∨ s z = none)) ∨
      ∃ y ∈ t.fv, y ∉ bound ∧ Reaches s y z ∧ s z = none) ∧
    ∀ y ∈ t.fv, y ∉ bound → ∀ z, Reaches s y z → s z = none → z ∉ bound := by
  induction h with
  | bound hx =>
    refine ⟨fun z => ?_, fun y hy hb => ?_⟩
    · constructor
      · intro hz
        obtain rfl := List.mem_singleton.mp hz
        exact Or.inl ⟨hz, Or.inl hx⟩
      · rintro (⟨hz, -⟩ | ⟨y, hy, hb, -⟩)
        · exact hz
        · obtain rfl := List.mem_singleton.mp hy
          exact absurd hx hb
    · obtain rfl := List.mem_singleton.mp hy
      exact absurd hx hb
  | free hx hs =>
    refine ⟨fun z => ?_, fun y hy _ z hz => ?_⟩
    · constructor
      · intro hz
        obtain rfl := List.mem_singleton.mp hz
        exact Or.inl ⟨hz, Or.inr hs⟩
      · rintro (⟨hz, -⟩ | ⟨y, hy, -, hr, -⟩)
        · exact hz
        · obtain rfl := List.mem_singleton.mp hy
          exact absurd hs hr.mapped
    · obtain rfl := List.mem_singleton.mp hy
      exact absurd hs hz.mapped
  | once htr => cases htr
  | @resolved bound x t u _ hx hs _ hfresh ih =>
    have hu : ∀ z, z ∈ u.fv ↔ Reaches s x z ∧ s z = none := by
      intro z
      rw [ih.1 z, reaches_iff hs]
      simp only [List.not_mem_nil, false_or, not_false_eq_true, true_and]
      constructor
      · rintro (⟨hz, hn⟩ | ⟨y, hy, hr, hn⟩)
        · exact ⟨Or.inl hz, hn⟩
        · exact ⟨Or.inr ⟨y, hy, hr⟩, hn⟩
      · rintro ⟨hz | ⟨y, hy, hr⟩, hn⟩
        · exact Or.inl ⟨hz, hn⟩
        · exact Or.inr ⟨y, hy, hr, hn⟩
    refine ⟨fun z => ?_, fun y hy _ z hr hn => ?_⟩
    · rw [hu z]
      constructor
      · rintro ⟨hr, hn⟩
        exact Or.inr ⟨x, List.mem_cons_self, hx, hr, hn⟩
      · rintro (⟨hz, hz'⟩ | ⟨y, hy, -, hr, hn⟩)
        · obtain rfl := List.mem_singleton.mp hz
          rcases hz' with hz' | hz'
          · exact absurd hz' hx
          · rw [hs] at hz'
            cases hz'
        · obtain rfl := List.mem_singleton.mp hy
          exact ⟨hr, hn⟩
    · obtain rfl := List.mem_singleton.mp hy
      exact hfresh z ((hu z).mpr ⟨hr, hn⟩)
  | @node bound t u us ht hrepr hlen _ hu ih =>
    have hfv : ∀ z, z ∈ t.fv ↔ z ∈ t.reprVars ∨ ∃ c ∈ t.children, z ∈ c.type.fv ∧ z ∉ c.binds := fun z => by
      rw [mem_fv_iff, or_iff_right (ht z)]
    have hfresh : ∀ y ∈ t.fv, y ∉ bound → ∀ z, Reaches s y z → s z = none →
        ∃ p ∈ t.children.zip us, y ∈ p.1.type.fv ∧ y ∉ p.1.binds ++ bound ∧ z ∉ p.1.binds ++ bound := by
      intro y hy hb z hr hn
      rcases (hfv y).mp hy with hy | ⟨c, hc, hy, hcb⟩
      · exact absurd (hrepr y hy hb) hr.mapped
      · obtain ⟨v, hv⟩ := exists_mem_zip hlen hc
        have hyb : y ∉ c.binds ++ bound := fun h => (List.mem_append.mp h).elim hcb hb
        exact ⟨(c, v), hv, hy, hyb, (ih (c, v) hv).2 y hy hyb z hr hn⟩
    refine ⟨fun z => ?_, fun y hy hb z hr hn hz => ?_⟩
    · rw [mem_fv_of_remake ht hlen hu]
      constructor
      · rintro (hz | ⟨p, hp, hz, hnb⟩)
        · by_cases hb : z ∈ bound
          · exact Or.inl ⟨(hfv z).mpr (Or.inl hz), Or.inl hb⟩
          · exact Or.inl ⟨(hfv z).mpr (Or.inl hz), Or.inr (hrepr z hz hb)⟩
        · have hc := (List.of_mem_zip hp).1
          rcases ((ih p hp).1 z).mp hz with ⟨hz, hz'⟩ | ⟨y, hy, hyb, hr, hn⟩
          · refine Or.inl ⟨(hfv z).mpr (Or.inr ⟨p.1, hc, hz, hnb⟩), hz'.imp_left fun h => ?_⟩
            exact (List.mem_append.mp h).resolve_left hnb
          · rw [List.mem_append, not_or] at hyb
            exact Or.inr ⟨y, (hfv y).mpr (Or.inr ⟨p.1, hc, hy, hyb.1⟩), hyb.2, hr, hn⟩
      · rintro (⟨hz, hz'⟩ | ⟨y, hy, hb, hr, hn⟩)
        · refine ((hfv z).mp hz).imp_right ?_
          rintro ⟨c, hc, hz, hcb⟩
          obtain ⟨v, hv⟩ := exists_mem_zip hlen hc
          refine ⟨(c, v), hv, ((ih (c, v) hv).1 z).mpr (Or.inl ⟨hz, ?_⟩), hcb⟩
          exact hz'.imp_left fun h => List.mem_append_right _ h
        · obtain ⟨p, hp, hyp, hyb, hzb⟩ := hfresh y hy hb z hr hn
          refine Or.inr ⟨p, hp, ((ih p hp).1 z).mpr (Or.inr ⟨y, hyp, hyb, hr, hn⟩), ?_⟩
          exact fun h => hzb (List.mem_append_left _ h)
    · obtain ⟨p, -, -, -, hzb⟩ := hfresh y hy hb z hr hn
      exact hzb (List.mem_append_right _ hz)

/-- What a mapped free variable is resolved to. -/
lemma exists_resolved {bound : List Bytes} {t u : MonoType} (h : Replaced L true s bound t u) :
    ∀ y ∈ t.fv, y ∉ bound → s y ≠ none → ∃ v, Replaced L true s [] (.tvar y) v := by
  induction h with
  | bound hx =>
    intro y hy hb _
    obtain rfl := List.mem_singleton.mp hy
    exact absurd hx hb
  | free hx hs =>
    intro y hy _ hn
    obtain rfl := List.mem_singleton.mp hy
    exact absurd hs hn
  | once htr => cases htr
  | @resolved bound x t u htr _ hs hrep _ _ =>
    intro y hy _ _
    obtain rfl := List.mem_singleton.mp hy
    exact ⟨u, .resolved htr List.not_mem_nil hs hrep fun _ _ => List.not_mem_nil⟩
  | @node bound t u us ht hrepr hlen _ _ ih =>
    intro y hy hb hn
    rcases mem_fv_iff.mp hy with hy | hy | ⟨c, hc, hy, hcb⟩
    · exact absurd hy (ht y)
    · exact absurd (hrepr y hy hb) hn
    · obtain ⟨v, hv⟩ := exists_mem_zip hlen hc
      exact ih (c, v) hv y hy (fun h => (List.mem_append.mp h).elim hcb hb) hn

/-- The free variables of the result: those that are not mapped, and those of what the mapped ones are resolved to. -/
def FreeVariablesOk (L : Layout) (s : TypeSubst) (t u : MonoType) : Prop :=
  ∀ x, x ∈ u.fv ↔ (x ∈ t.fv ∧ s x = none) ∨
    ∃ y ∈ t.fv, s y ≠ none ∧ ∃ v, Replaced L true s [] (.tvar y) v ∧ x ∈ v.fv

lemma Replaced.freeVariablesOk {t u : MonoType} (h : Replaced L true s [] t u) : FreeVariablesOk L s t u := by
  have hvar : ∀ {y v : Bytes} {w : MonoType}, s y ≠ none → Replaced L true s [] (.tvar y) w →
      (v ∈ w.fv ↔ Reaches s y v ∧ s v = none) := by
    intro y v w hy hw
    rw [(mem_fv_replaced hw).1 v]
    constructor
    · rintro (⟨hv, hv'⟩ | ⟨z, hz, -, hr, hn⟩)
      · obtain rfl := List.mem_singleton.mp hv
        exact absurd (hv'.resolve_left List.not_mem_nil) hy
      · obtain rfl := List.mem_singleton.mp hz
        exact ⟨hr, hn⟩
    · rintro ⟨hr, hn⟩
      exact Or.inr ⟨y, List.mem_cons_self, List.not_mem_nil, hr, hn⟩
  intro x
  rw [(mem_fv_replaced h).1 x]
  refine or_congr (and_congr_right fun _ => or_iff_right List.not_mem_nil) ?_
  constructor
  · rintro ⟨y, hy, hb, hr, hn⟩
    obtain ⟨v, hv⟩ := exists_resolved h y hy hb hr.mapped
    exact ⟨y, hy, hr.mapped, v, hv, (hvar hr.mapped hv).mpr ⟨hr, hn⟩⟩
  · rintro ⟨y, hy, hne, v, hv, hx⟩
    obtain ⟨hr, hn⟩ := (hvar hne hv).mp hx
    exact ⟨y, hy, List.not_mem_nil, hr, hn⟩

lemma Substituted.freeVariablesOk {t u : MonoType} (h : Substituted L true s t u) : FreeVariablesOk L s t u := by
  unfold Substituted at h
  split_ifs at h
  · obtain ⟨rfl, hnone⟩ := h
    intro x
    constructor
    · exact fun hx => Or.inl ⟨hx, hnone x hx⟩
    · rintro (⟨hx, -⟩ | ⟨y, hy, hne, -⟩)
      · exact hx
      · exact absurd (hnone y hy) hne
  · exact h.freeVariablesOk

/-! ### Substitution of a type -/

lemma substituted_iff_noCapture {n : ℕ} {t u : MonoType} (h : substitute L n s t = some u) :
    Substituted L true s t u ↔ NoCapture s t := by
  unfold substitute at h
  unfold Substituted NoCapture
  split_ifs at h ⊢
  · cases h
    exact and_iff_right rfl
  · have hiff : Replaced L true s [] t u ∧ (∀ x ∈ u.fv, x ∈ ([] : List Bytes) → x ∈ ([] : List Bytes)) ↔
        Clear s [] [] [] t := by
      apply replaced_iff_clear (List.Subset.refl _) (List.Subset.refl _)
      rwa [TypeSubst.cut_nil]
    rw [← hiff]
    exact (and_iff_left fun _ _ hx => hx).symm

lemma substitute_mono {n m : ℕ} {t u : MonoType} (h : substitute L n s t = some u) (hnm : n ≤ m) :
    substitute L m s t = some u := by
  unfold substitute at h ⊢
  split_ifs at h ⊢
  · exact h
  · exact substituteF_mono h hnm

lemma substitute_unique {n m : ℕ} {t u v : MonoType} (hu : substitute L n s t = some u)
    (hv : substitute L m s t = some v) : u = v := by
  unfold substitute at hu hv
  split_ifs at hu hv
  · cases hu
    cases hv
    rfl
  · have hmax := substituteF_mono hu (Nat.le_max_left n m)
    rw [substituteF_mono hv (Nat.le_max_right n m)] at hmax
    exact (Option.some.inj hmax).symm

lemma exists_substitute {t u : MonoType} (h : Substituted L true s t u) (hclear : NoCapture s t) :
    ∃ n, substitute L n s t = some u := by
  unfold Substituted at h
  unfold NoCapture at hclear
  unfold substitute
  split_ifs at h hclear ⊢
  · exact ⟨0, by rw [h.1]⟩
  · obtain ⟨n, hn⟩ := exists_substituteF h hclear
    exact ⟨n, by rwa [TypeSubst.cut_nil] at hn⟩

end

/-- The compiler replaces what is to be replaced, and no more, just where nothing is captured on the way. -/
theorem substitute_avoids_capture_iff (L : Layout) (s : TypeSubst) (t : MonoType) :
    ((∃ n u, substitute L n s t = some u ∧ Substituted L true s t u ∧ FreeVariablesOk L s t u) ↔
      NoCapture s t ∧ ∃ u, Substituted L true s t u) ∧
    ∀ n u, substitute L n s t = some u →
      (Substituted L true s t u ∧ FreeVariablesOk L s t u ↔ NoCapture s t) := by
  have hrun : ∀ n u, substitute L n s t = some u →
      (Substituted L true s t u ∧ FreeVariablesOk L s t u ↔ NoCapture s t) := fun n u h => by
    rw [← substituted_iff_noCapture h]
    exact ⟨And.left, fun hu => ⟨hu, hu.freeVariablesOk⟩⟩
  refine ⟨⟨?_, ?_⟩, hrun⟩
  · rintro ⟨n, u, h, hu⟩
    exact ⟨(hrun n u h).mp hu, u, hu.1⟩
  · rintro ⟨hclear, u, hu⟩
    obtain ⟨n, h⟩ := exists_substitute hu hclear
    exact ⟨n, u, h, hu, hu.freeVariablesOk⟩

/-- No variable is reached again through what it stands for. -/
def TypeSubst.Acyclic (s : TypeSubst) : Prop :=
  ∃ rank : Bytes → ℕ, ∀ x t, s x = some t → ∀ y ∈ t.fv, rank y < rank x

/-- Where `b` stands for `a`, a `b` under a binder of `a` is captured. -/
theorem not_substitute_avoids_capture : ¬ ∀ (L : Layout) (s : TypeSubst) (t : MonoType),
    {x | s x ≠ none}.Finite → s.Acyclic →
    ∃ n u, substitute L n s t = some u ∧ Substituted L true s t u ∧ FreeVariablesOk L s t u := by
  intro h
  let s : TypeSubst := fun x => if x = [98] then some (.tvar [97]) else none
  have hfin : {x | s x ≠ none}.Finite := by
    refine (Set.finite_singleton [98]).subset fun x hx => ?_
    by_contra hne
    exact hx (if_neg hne)
  have hacyclic : s.Acyclic := by
    refine ⟨fun x => if x = [98] then 1 else 0, fun x t hs y hy => ?_⟩
    by_cases hx : x = [98]
    · rw [show s x = some (.tvar [97]) from if_pos hx] at hs
      cases hs
      obtain rfl := List.mem_singleton.mp hy
      simp [hx]
    · rw [show s x = none from if_neg hx] at hs
      cases hs
  let L : Layout := ⟨fun _ => none, fun _ => none⟩
  let t : MonoType := .existsType [97] (.func (.tvar [97]) (.tvar [98]))
  obtain ⟨n, u, hu, -, hfv⟩ := h L s t hfin hacyclic
  have hrun : substitute L 4 s t = some (.existsType [97] (.func (.tvar [97]) (.tvar [97]))) := rfl
  obtain rfl := substitute_unique hu hrun
  have hmem : [98] ∈ t.fv := by decide
  have himage : Replaced L true s [] (.tvar [98]) (.tvar [97]) :=
    .resolved rfl List.not_mem_nil rfl (.free List.not_mem_nil rfl) fun _ _ => List.not_mem_nil
  have hfree := (hfv [97]).mpr (Or.inr ⟨[98], hmem, by simp [s], _, himage, List.mem_cons_self⟩)
  exact absurd hfree (by decide)

end Hobbes.Lang
