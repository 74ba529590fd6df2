import Hobbes.Core.Lists
import Hobbes.Lang.Substitution

/-!
# The parts of types

A pass over types goes into the parts of a type, and makes the type again from what it finds there. Some of the
parts are under names that the type binds.
-/

namespace Hobbes.Lang

open Core

/-! ### Free variables -/

mutual

/-- The variables that are free in a type, also under a type abstraction. -/
def MonoType.fv : MonoType → List Bytes
  | .prim _ none => []
  | .prim _ (some t) => t.fv
  | .opaquePtr _ _ _ => []
  | .tvar nm => [nm]
  | .tgen _ => []
  | .tabs targns b => b.fv.filter (· ∉ targns)
  | .tapp f targs => f.fv ++ typesFv targs
  | .fixedArray ty len => ty.fv ++ len.fv
  | .array ty => ty.fv
  | .variant ms => variantFv ms
  | .record ms => recordFv ms
  | .func aty rty => aty.fv ++ rty.fv
  | .existsType tname bty => bty.fv.filter (· ≠ tname)
  | .recursive tname bty => bty.fv.filter (· ≠ tname)
  | .tstring _ => []
  | .tlong _ => []

def typesFv : List MonoType → List Bytes
  | [] => []
  | t :: ts => t.fv ++ typesFv ts

def variantFv : List (Variant.Member MonoType) → List Bytes
  | [] => []
  | ⟨_, t, _⟩ :: ms => t.fv ++ variantFv ms

def recordFv : List (Record.Member MonoType) → List Bytes
  | [] => []
  | ⟨_, t, _⟩ :: ms => t.fv ++ recordFv ms

end

lemma mem_typesFv {x : Bytes} {ts : List MonoType} : x ∈ typesFv ts ↔ ∃ t ∈ ts, x ∈ t.fv := by
  induction ts with
  | nil => simp [typesFv]
  | cons t ts ih => simp [typesFv, ih]

lemma mem_variantFv {x : Bytes} {ms : List (Variant.Member MonoType)} :
    x ∈ variantFv ms ↔ ∃ m ∈ ms, x ∈ m.type.fv := by
  induction ms with
  | nil => simp [variantFv]
  | cons m ms ih =>
    obtain ⟨_, t, _⟩ := m
    simp [variantFv, ih]

lemma mem_recordFv {x : Bytes} {ms : List (Record.Member MonoType)} :
    x ∈ recordFv ms ↔ ∃ m ∈ ms, x ∈ m.type.fv := by
  induction ms with
  | nil => simp [recordFv]
  | cons m ms ih =>
    obtain ⟨_, t, _⟩ := m
    simp [recordFv, ih]

@[simp] lemma fv_normIfOpaquePtr (t : MonoType) : (normIfOpaquePtr t).fv = t.fv := by
  cases t <;> simp [normIfOpaquePtr, OpaquePtr.make, MonoType.fv]

/-! ### Parts -/

/-- A part of a type: the names that are bound over it, those of them that a substitution is cut by, and the part. -/
structure Child where
  binds : List Bytes
  cuts : List Bytes
  type : MonoType

abbrev Child.plain (t : MonoType) : Child := ⟨[], [], t⟩

/-- A primitive type's representation is not one of its parts. -/
def MonoType.children : MonoType → List Child
  | .tabs targns b => [⟨targns, [], b⟩]
  | .tapp f targs => .plain f :: targs.map .plain
  | .fixedArray ty len => [.plain (normIfOpaquePtr ty), .plain len]
  | .array ty => [.plain (normIfOpaquePtr ty)]
  | .variant ms => ms.map fun m => .plain m.type
  | .record ms => ms.map fun m => .plain m.type
  | .func aty rty => [.plain aty, .plain rty]
  | .existsType tname bty => [⟨[tname], [tname], bty⟩]
  | .recursive tname bty => [⟨[tname], [tname], bty⟩]
  | _ => []

lemma cuts_subset_binds {t : MonoType} {c : Child} (hc : c ∈ t.children) : c.cuts ⊆ c.binds := by
  cases t <;> grind [MonoType.children]

/-- The type made again with other parts. -/
def MonoType.remake (L : Layout) : MonoType → List MonoType → Option MonoType
  | .prim nm t, _ => some (.prim nm t)
  | .opaquePtr nm sz scontig, _ => some (OpaquePtr.make nm sz scontig)
  | .tvar nm, _ => some (.tvar nm)
  | .tgen x, _ => some (.tgen x)
  | .tabs targns _, [b] => some (.tabs targns b)
  | .tapp _ _, f :: targs => some (.tapp f targs)
  | .fixedArray _ _, [ty, len] => some (.fixedArray ty len)
  | .array _, [ty] => some (.array ty)
  | .variant ms, ts => some (.variant (ms.zipWith (fun m t => { m with type := t }) ts))
  | .record ms, ts => Record.make L (ms.zipWith (fun m t => { m with type := t }) ts)
  | .func _ _, [aty, rty] => some (.func aty rty)
  | .existsType tname _, [bty] => some (.existsType tname bty)
  | .recursive tname _, [bty] => some (.recursive tname bty)
  | .tstring val, _ => some (.tstring val)
  | .tlong x, _ => some (.tlong x)
  | _, _ => none

def MonoType.reprVars : MonoType → List Bytes
  | .prim _ (some t) => t.fv
  | _ => []

lemma mem_fv_iff {x : Bytes} {t : MonoType} :
    x ∈ t.fv ↔ t = .tvar x ∨ x ∈ t.reprVars ∨ ∃ c ∈ t.children, x ∈ c.type.fv ∧ x ∉ c.binds := by
  cases t with
  | prim nm r => cases r <;> simp [MonoType.fv, MonoType.reprVars, MonoType.children]
  | tvar nm => simp [MonoType.fv, MonoType.reprVars, MonoType.children, eq_comm]
  | tapp f targs => simp [MonoType.fv, MonoType.reprVars, MonoType.children, mem_typesFv]
  | variant ms => simp [MonoType.fv, MonoType.reprVars, MonoType.children, mem_variantFv]
  | record ms => simp [MonoType.fv, MonoType.reprVars, MonoType.children, mem_recordFv]
  | _ => simp [MonoType.fv, MonoType.reprVars, MonoType.children]

/-! ### Made again -/

lemma map_zipWith_members {M : Type} (type : M → MonoType) (set : M → MonoType → M)
    (hset : ∀ m t, type (set m t) = t) {ms : List M} {us : List MonoType} (h : us.length = ms.length) :
    (ms.zipWith set us).map type = us := by
  induction ms generalizing us with
  | nil =>
    rw [List.eq_nil_of_length_eq_zero h]
    rfl
  | cons m ms ih =>
    cases us with
    | nil => cases h
    | cons u us => rw [List.zipWith_cons_cons, List.map_cons, hset, ih (Nat.succ.inj h)]

lemma zipWith_members_self {M : Type} (type : M → MonoType) (set : M → MonoType → M)
    (hset : ∀ m, set m (type m) = m) (ms : List M) : ms.zipWith set (ms.map type) = ms := by
  induction ms with
  | nil => rfl
  | cons m ms ih => rw [List.map_cons, List.zipWith_cons_cons, hset, ih]

/-- What the type made again has in the place of a part `p.1`, for which `p.2` was found. -/
def Child.Becomes (c : Child) (p : Child × MonoType) : Prop :=
  c.binds = p.1.binds ∧ c.cuts = p.1.cuts ∧
    (c.type = p.2 ∨ normIfOpaquePtr p.1.type = p.1.type ∧ c.type = normIfOpaquePtr p.2)

lemma becomes_plain {ts us : List MonoType} (h : us.length = ts.length) :
    List.Forall₂ Child.Becomes (us.map .plain) ((ts.map .plain).zip us) := by
  induction ts generalizing us with
  | nil =>
    rw [List.eq_nil_of_length_eq_zero h]
    exact .nil
  | cons t ts ih =>
    cases us with
    | nil => cases h
    | cons u us => exact .cons ⟨rfl, rfl, Or.inl rfl⟩ (ih (Nat.succ.inj h))

lemma normIfOpaquePtr_idem (t : MonoType) : normIfOpaquePtr (normIfOpaquePtr t) = normIfOpaquePtr t := by
  cases t <;> rfl

lemma becomes_norm (ty v : MonoType) :
    (Child.plain (normIfOpaquePtr v)).Becomes (.plain (normIfOpaquePtr ty), v) :=
  ⟨rfl, rfl, Or.inr ⟨normIfOpaquePtr_idem ty, rfl⟩⟩

/-- A type that has been made again can be made from the same parts once more. -/
lemma remake_spec {L : Layout} {t u : MonoType} {us : List MonoType} (hlen : us.length = t.children.length)
    (h : t.remake L us = some u) :
    (∀ x, u = .tvar x → t = .tvar x) ∧ u.reprVars = t.reprVars ∧ u.remake L us = some u ∧
      List.Forall₂ Child.Becomes u.children (t.children.zip us) := by
  cases t with
  | tapp f targs =>
    rcases us with _ | ⟨v, vs⟩
    · cases hlen
    · cases h
      have hlen : vs.length = targs.length := by simpa [MonoType.children] using hlen
      exact ⟨nofun, rfl, rfl, .cons ⟨rfl, rfl, Or.inl rfl⟩ (becomes_plain hlen)⟩
  | fixedArray ty len =>
    rcases us with _ | ⟨v, _ | ⟨w, _ | ⟨_, _⟩⟩⟩ <;> cases hlen
    cases h
    exact ⟨nofun, rfl, rfl, .cons (becomes_norm ty v) (.cons ⟨rfl, rfl, Or.inl rfl⟩ .nil)⟩
  | array ty =>
    rcases us with _ | ⟨v, _ | ⟨_, _⟩⟩ <;> cases hlen
    cases h
    exact ⟨nofun, rfl, rfl, .cons (becomes_norm ty v) .nil⟩
  | variant ms =>
    cases h
    have hlen : us.length = (ms.map Variant.Member.type).length := by simpa [MonoType.children] using hlen
    have hus := map_zipWith_members Variant.Member.type (fun m t => { m with type := t }) (fun _ _ => rfl)
      (hlen.trans (List.length_map _))
    refine ⟨nofun, rfl, ?_, ?_⟩
    · have hagain := zipWith_members_self Variant.Member.type (fun m t => { m with type := t }) (fun _ => rfl)
        (ms.zipWith (fun m t => { m with type := t }) us)
      rw [hus] at hagain
      rw [MonoType.remake, hagain]
    · have hparts := becomes_plain hlen
      rwa [← hus, List.map_map, List.map_map, hus] at hparts
  | record ms =>
    obtain ⟨ms', rfl, hmake, htypes⟩ := Record.make_eq_some h
    have hlen : us.length = (ms.map Record.Member.type).length := by simpa [MonoType.children] using hlen
    have hus : ms'.map Record.Member.type = us :=
      htypes.trans (map_zipWith_members Record.Member.type (fun m t => { m with type := t }) (fun _ _ => rfl)
        (hlen.trans (List.length_map _)))
    refine ⟨nofun, rfl, ?_, ?_⟩
    · have hagain := zipWith_members_self Record.Member.type (fun m t => { m with type := t }) (fun _ => rfl) ms'
      rw [hus] at hagain
      rw [MonoType.remake, hagain, hmake]
    · have hparts := becomes_plain hlen
      rwa [← hus, List.map_map, List.map_map, hus] at hparts
  | func aty rty =>
    rcases us with _ | ⟨v, _ | ⟨w, _ | ⟨_, _⟩⟩⟩ <;> cases hlen
    cases h
    exact ⟨nofun, rfl, rfl, .cons ⟨rfl, rfl, Or.inl rfl⟩ (.cons ⟨rfl, rfl, Or.inl rfl⟩ .nil)⟩
  | tabs targns b =>
    rcases us with _ | ⟨v, _ | ⟨_, _⟩⟩ <;> cases hlen
    cases h
    exact ⟨nofun, rfl, rfl, .cons ⟨rfl, rfl, Or.inl rfl⟩ .nil⟩
  | existsType tname bty =>
    rcases us with _ | ⟨v, _ | ⟨_, _⟩⟩ <;> cases hlen
    cases h
    exact ⟨nofun, rfl, rfl, .cons ⟨rfl, rfl, Or.inl rfl⟩ .nil⟩
  | recursive tname bty =>
    rcases us with _ | ⟨v, _ | ⟨_, _⟩⟩ <;> cases hlen
    cases h
    exact ⟨nofun, rfl, rfl, .cons ⟨rfl, rfl, Or.inl rfl⟩ .nil⟩
  | tvar nm =>
    cases h
    exact ⟨fun x hx => hx, rfl, rfl, .nil⟩
  | opaquePtr nm sz scontig =>
    cases h
    refine ⟨nofun, rfl, ?_, .nil⟩
    cases scontig <;> rfl
  | _ =>
    cases h
    exact ⟨nofun, rfl, rfl, .nil⟩

/-- What a type was made again from can be read off it. -/
lemma remake_injective {L : Layout} {t u : MonoType} {us vs : List MonoType} (hus : us.length = t.children.length)
    (hvs : vs.length = t.children.length) (hu : t.remake L us = some u) (hv : t.remake L vs = some u) : us = vs := by
  cases t with
  | tapp f targs =>
    rcases us with _ | ⟨v, us⟩ <;> rcases vs with _ | ⟨w, vs⟩ <;> cases hu <;> cases hv
    rfl
  | fixedArray ty len =>
    rcases us with _ | ⟨v, _ | ⟨w, _ | ⟨_, _⟩⟩⟩ <;> cases hus
    rcases vs with _ | ⟨v, _ | ⟨w, _ | ⟨_, _⟩⟩⟩ <;> cases hvs
    cases hu
    cases hv
    rfl
  | func aty rty =>
    rcases us with _ | ⟨v, _ | ⟨w, _ | ⟨_, _⟩⟩⟩ <;> cases hus
    rcases vs with _ | ⟨v, _ | ⟨w, _ | ⟨_, _⟩⟩⟩ <;> cases hvs
    cases hu
    cases hv
    rfl
  | variant ms =>
    have hlen : ∀ {ts : List MonoType}, ts.length = (MonoType.variant ms).children.length → ts.length = ms.length :=
      fun h => by simpa [MonoType.children] using h
    have htypes := fun (ts : List MonoType) (hts : ts.length = ms.length) =>
      map_zipWith_members Variant.Member.type (fun m t => { m with type := t }) (fun _ _ => rfl) hts
    cases hu
    have heq := MonoType.variant.inj (Option.some.inj hv)
    rw [← htypes us (hlen hus), ← heq, htypes vs (hlen hvs)]
  | record ms =>
    have hlen : ∀ {ts : List MonoType}, ts.length = (MonoType.record ms).children.length → ts.length = ms.length :=
      fun h => by simpa [MonoType.children] using h
    have htypes := fun (ts : List MonoType) (hts : ts.length = ms.length) =>
      map_zipWith_members Record.Member.type (fun m t => { m with type := t }) (fun _ _ => rfl) hts
    obtain ⟨ms', rfl, -, hms'⟩ := Record.make_eq_some hu
    obtain ⟨ms'', heq, -, hms''⟩ := Record.make_eq_some hv
    cases heq
    rw [← htypes us (hlen hus), ← hms', hms'', htypes vs (hlen hvs)]
  | tabs targns b =>
    rcases us with _ | ⟨v, _ | ⟨_, _⟩⟩ <;> cases hus
    rcases vs with _ | ⟨v, _ | ⟨_, _⟩⟩ <;> cases hvs
    cases hu
    cases hv
    rfl
  | array ty =>
    rcases us with _ | ⟨v, _ | ⟨_, _⟩⟩ <;> cases hus
    rcases vs with _ | ⟨v, _ | ⟨_, _⟩⟩ <;> cases hvs
    cases hu
    cases hv
    rfl
  | existsType tname bty =>
    rcases us with _ | ⟨v, _ | ⟨_, _⟩⟩ <;> cases hus
    rcases vs with _ | ⟨v, _ | ⟨_, _⟩⟩ <;> cases hvs
    cases hu
    cases hv
    rfl
  | recursive tname bty =>
    rcases us with _ | ⟨v, _ | ⟨_, _⟩⟩ <;> cases hus
    rcases vs with _ | ⟨v, _ | ⟨_, _⟩⟩ <;> cases hvs
    cases hu
    cases hv
    rfl
  | _ => rw [List.eq_nil_of_length_eq_zero hus, List.eq_nil_of_length_eq_zero hvs]

lemma Child.Becomes.fv {c : Child} {p : Child × MonoType} (h : c.Becomes p) : c.type.fv = p.2.fv := by
  rcases h.2.2 with heq | ⟨-, heq⟩ <;> rw [heq]
  exact fv_normIfOpaquePtr p.2

/-- The free variables of a type that has been made again are those of its parts. -/
lemma mem_fv_of_remake {L : Layout} {t u : MonoType} {us : List MonoType} (ht : ∀ x, t ≠ .tvar x)
    (hlen : us.length = t.children.length) (h : t.remake L us = some u) {x : Bytes} :
    x ∈ u.fv ↔ x ∈ t.reprVars ∨ ∃ p ∈ t.children.zip us, x ∈ p.2.fv ∧ x ∉ p.1.binds := by
  obtain ⟨hvar, hrepr, -, hparts⟩ := remake_spec hlen h
  rw [mem_fv_iff, hrepr, or_iff_right fun hu => ht x (hvar x hu)]
  refine or_congr_right (exists_iff_of_forall₂ hparts fun c p hcp => ?_)
  rw [hcp.fv, hcp.1]

/-! ### Substitution goes into the parts -/

/-- `cuts.erase` for several names. -/
def TypeSubst.cut (s : TypeSubst) (ns : List Bytes) : TypeSubst := fun x => if x ∈ ns then none else s x

@[simp] lemma TypeSubst.cut_nil (s : TypeSubst) : s.cut [] = s := by
  funext x
  simp [TypeSubst.cut]

lemma TypeSubst.cut_cut (s : TypeSubst) (ns ns' : List Bytes) : (s.cut ns).cut ns' = s.cut (ns' ++ ns) := by
  funext x
  simp only [TypeSubst.cut, List.mem_append]
  split_ifs <;> simp_all

lemma TypeSubst.erase_eq_cut (s : TypeSubst) (nm : Bytes) : s.erase nm = s.cut [nm] := by
  funext x
  simp [TypeSubst.cut, TypeSubst.erase]

lemma mapM_members {M : Type} (f : MonoType → Option MonoType) (type : M → MonoType) (set : M → MonoType → M)
    (ms : List M) :
    (ms.mapM fun m => (f (type m)).map (set m)) = ((ms.map type).mapM f).map fun ts => ms.zipWith set ts := by
  induction ms with
  | nil => rfl
  | cons m ms ih =>
    simp only [List.mapM_cons, List.map_cons, ih]
    cases f (type m) with
    | none => rfl
    | some t => cases (ms.map type).mapM f <;> rfl

lemma mapM_map {α β γ : Type} (f : β → Option γ) (g : α → β) (l : List α) :
    (l.map g).mapM f = l.mapM fun a => f (g a) := by
  induction l with
  | nil => rfl
  | cons a l ih => simp only [List.map_cons, List.mapM_cons, ih]

/-- Everything but a mapped variable is made again from its parts. -/
lemma substituteF_succ (L : Layout) (n : ℕ) (s : TypeSubst) {t : MonoType} (ht : ∀ x, t = .tvar x → s x = none) :
    substituteF L (n + 1) s t =
      (t.children.mapM fun c => substituteF L n (s.cut c.cuts) c.type).bind (t.remake L) := by
  cases t with
  | tvar nm => simp [substituteF, MonoType.children, MonoType.remake, ht nm rfl]
  | tapp f targs =>
    simp only [substituteF, MonoType.children, List.mapM_cons, TypeSubst.cut_nil, mapM_map]
    cases substituteF L n s f with
    | none => rfl
    | some f => cases targs.mapM fun t => substituteF L n s t <;> simp [MonoType.remake]
  | fixedArray ty len =>
    simp only [substituteF, MonoType.children, List.mapM_cons, List.mapM_nil, TypeSubst.cut_nil]
    cases substituteF L n s (normIfOpaquePtr ty) with
    | none => rfl
    | some ty => cases substituteF L n s len <;> rfl
  | variant ms =>
    simp only [substituteF, MonoType.children, mapM_map, TypeSubst.cut_nil]
    have := mapM_members (substituteF L n s) Variant.Member.type (fun m t => { m with type := t }) ms
    simp only [mapM_map] at this
    rw [this]
    cases ms.mapM fun m => substituteF L n s m.type <;> rfl
  | record ms =>
    simp only [substituteF, MonoType.children, mapM_map, TypeSubst.cut_nil]
    have := mapM_members (substituteF L n s) Record.Member.type (fun m t => { m with type := t }) ms
    simp only [mapM_map] at this
    rw [this]
    cases ms.mapM fun m => substituteF L n s m.type <;> rfl
  | func aty rty =>
    simp only [substituteF, MonoType.children, List.mapM_cons, List.mapM_nil, TypeSubst.cut_nil]
    cases substituteF L n s aty with
    | none => rfl
    | some aty => cases substituteF L n s rty <;> rfl
  | tabs targns b =>
    simp only [substituteF, MonoType.children, List.mapM_cons, List.mapM_nil, TypeSubst.cut_nil]
    cases substituteF L n s b <;> rfl
  | array ty =>
    simp only [substituteF, MonoType.children, List.mapM_cons, List.mapM_nil, TypeSubst.cut_nil]
    cases substituteF L n s (normIfOpaquePtr ty) <;> rfl
  | existsType tname bty =>
    simp only [substituteF, MonoType.children, List.mapM_cons, List.mapM_nil, TypeSubst.erase_eq_cut]
    cases substituteF L n (s.cut [tname]) bty <;> rfl
  | recursive tname bty =>
    simp only [substituteF, MonoType.children, List.mapM_cons, List.mapM_nil, TypeSubst.erase_eq_cut]
    cases substituteF L n (s.cut [tname]) bty <;> rfl
  | _ => simp [substituteF, MonoType.children, MonoType.remake]

lemma substituteF_tvar (L : Layout) (n : ℕ) {s : TypeSubst} {x : Bytes} {t : MonoType} (h : s x = some t) :
    substituteF L (n + 1) s (.tvar x) = substituteF L n s t := by
  rw [substituteF, h]

end Hobbes.Lang
