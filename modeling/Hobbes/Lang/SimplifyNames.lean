import Hobbes.Lang.Capture
import Hobbes.Lang.Expr
import Mathlib.Data.List.Dedup
import Mathlib.Data.List.Lex
import Mathlib.Data.List.Sort
import Mathlib.Data.Set.Function

/-!
# Simple names for type variables

The variables of a type are named after their positions in the ordered set of their names. The new names are put in
place of the old ones by a substitution, that is transitive.
-/

namespace Hobbes.Lang

open Core

/-! ### The order of names -/

/-- Strings are ordered by their bytes. -/
def stringLe (a b : Bytes) : Prop := a.map UInt8.toNat ≤ b.map UInt8.toNat

instance : DecidableRel stringLe := fun a b =>
  inferInstanceAs (Decidable (a.map UInt8.toNat ≤ b.map UInt8.toNat))

instance : Std.Total stringLe := ⟨fun _ _ => le_total _ _⟩

instance : IsTrans Bytes stringLe := ⟨fun _ _ _ => le_trans⟩

instance : Std.Antisymm stringLe where
  antisymm _ _ h h' := List.map_injective_iff.mpr (fun _ _ => UInt8.toNat_inj.mp) (le_antisymm h h')

/-! ### The pass -/

/-- `str::from`. -/
def decimalName (v : ℕ) : Bytes := (Nat.toDigits 10 v).map fun c => UInt8.ofNat c.toNat

def canonicalName (v : ℕ) : Bytes := if 26 ≤ v then 116 :: decimalName (v - 26) else [UInt8.ofNat (97 + v)]

/-- The loop of `canonicalNameSubst`, on the names that are left. -/
def canonicalNameSubstFrom (v : ℕ) : List Bytes → TypeSubst
  | [] => fun _ => none
  | n :: ns => fun x =>
    if x = n ∧ n ≠ canonicalName v then some (.tvar (canonicalName v)) else canonicalNameSubstFrom (v + 1) ns x

def canonicalNameSubst (ns : List Bytes) : TypeSubst := canonicalNameSubstFrom 0 ns

variable [DecidableEq MonoType]

instance : DecidableEq Constraint := fun a b =>
  decidable_of_iff (a.name = b.name ∧ a.arguments = b.arguments) (by cases a; cases b; simp)

def Constraint.substitute (L : Layout) (n : ℕ) (s : TypeSubst) (c : Constraint) : Option Constraint :=
  (c.arguments.mapM (Lang.substitute L n s)).map fun ts => { c with arguments := ts }

/-- A constraint that is there already is not added again. -/
def addConstraint (r : List Constraint) (c : Constraint) : List Constraint := if c ∈ r then r else r ++ [c]

def QualType.substitute (L : Layout) (n : ℕ) (s : TypeSubst) (q : QualType) : Option QualType := do
  let cs ← q.constraints.mapM (Constraint.substitute L n s)
  let t ← Lang.substitute L n s q.monoType
  return ⟨cs.foldl addConstraint [], t⟩

/-- What names are simplified in. -/
inductive Subject where
  | type (t : MonoType)
  | constraint (c : Constraint)
  | qual (q : QualType)

namespace Subject

def types : Subject → List MonoType
  | type t => [t]
  | constraint c => c.arguments
  | qual q => q.constraints.flatMap Constraint.arguments ++ [q.monoType]

/-- `tvarNames`, a set. -/
def names (x : Subject) : List Bytes := (Lang.tvarNames x.types).dedup.insertionSort stringLe

def substitute (L : Layout) (n : ℕ) (s : TypeSubst) : Subject → Option Subject
  | type t => (Lang.substitute L n s t).map type
  | constraint c => (c.substitute L n s).map constraint
  | qual q => (q.substitute L n s).map qual

def simplifyVarNames (L : Layout) (n : ℕ) (x : Subject) : Option Subject :=
  x.substitute L n (canonicalNameSubst x.names)

end Subject

/-! ### What it is to do -/

/-- A renaming as a substitution. -/
def renameBy (ρ : Bytes → Bytes) : TypeSubst := fun x => if ρ x = x then none else some (.tvar (ρ x))

namespace Subject

def fv (x : Subject) : Set Bytes := {v | ∃ t ∈ x.types, v ∈ t.fv}

/-- The names of `x` are simplified to `y`, where every type is the image of the type in whose place it is under one
injective renaming. -/
def IsRenamed (L : Layout) (x y : Subject) : Prop :=
  ∃ n ρ, x.simplifyVarNames L n = some y ∧ Set.InjOn ρ x.fv ∧ ∀ t ∈ x.types, ∃ u ∈ y.types,
    Lang.substitute L n (canonicalNameSubst x.names) t = some u ∧ Substituted L false (renameBy ρ) t u

/-- And the result is renamed if its names are simplified once more. -/
def IsSimplified (L : Layout) (x : Subject) : Prop := ∃ y z, x.IsRenamed L y ∧ y.IsRenamed L z

/-! ### When it does that -/

/-- No new name is in use for another variable. -/
def NamesApart (x : Subject) : Prop :=
  ∀ i v, x.names[i]? = some v → canonicalName i ≠ v → canonicalName i ∉ x.fv

/-- The new names are apart, nothing is captured, and the types can be made under their new names. -/
def CanBeRenamed (L : Layout) (x : Subject) : Prop :=
  x.NamesApart ∧ ∀ t ∈ x.types, NoCapture (canonicalNameSubst x.names) t ∧
    ∃ u, Substituted L false (canonicalNameSubst x.names) t u

end Subject

/-! ### New names -/

omit [DecidableEq MonoType]

lemma ofNat_toNat_inj {c d : Char} (hc : c.isDigit) (hd : d.isDigit)
    (h : UInt8.ofNat c.toNat = UInt8.ofNat d.toNat) : c = d := by
  have hlt : ∀ {c : Char}, c.isDigit → c.toNat < 256 := by
    intro c hc
    simp only [Char.isDigit, Bool.and_eq_true, decide_eq_true_eq] at hc
    exact lt_of_le_of_lt (UInt32.le_iff_toNat_le.mp hc.2) (by decide)
  have hnat := congrArg UInt8.toNat h
  rw [UInt8.toNat_ofNat_of_lt' (hlt hc), UInt8.toNat_ofNat_of_lt' (hlt hd)] at hnat
  exact Char.toNat_inj.mp hnat

lemma decimalName_injective : Function.Injective decimalName := by
  intro v w h
  have hdigit : ∀ n, ∀ c ∈ Nat.toDigits 10 n, c.isDigit := fun n c hc =>
    Nat.isDigit_of_mem_toDigits (by decide) (by decide) hc
  have hdigits : Nat.toDigits 10 v = Nat.toDigits 10 w :=
    eq_of_map_eq (fun c hc d hd => ofNat_toNat_inj (hdigit v c hc) (hdigit w d hd)) h
  rw [← Nat.ofDigitChars_ten_toDigits (n := v), hdigits, Nat.ofDigitChars_ten_toDigits]

lemma canonicalName_injective : Function.Injective canonicalName := by
  intro v w h
  unfold canonicalName at h
  split_ifs at h with hv hw hw
  · have := decimalName_injective (List.cons.inj h).2
    omega
  · have hnil : decimalName (v - 26) = [] := (List.cons.inj h).2
    exact absurd (List.map_eq_nil_iff.mp hnil) Nat.toDigits_ne_nil
  · have hnil : [] = decimalName (w - 26) := (List.cons.inj h).2
    exact absurd (List.map_eq_nil_iff.mp hnil.symm) Nat.toDigits_ne_nil
  · have hsize : ∀ {k : ℕ}, ¬ 26 ≤ k → 97 + k < UInt8.size := fun hk => by
      have : UInt8.size = 256 := rfl
      omega
    have hbyte := congrArg UInt8.toNat (List.cons.inj h).1
    rw [UInt8.toNat_ofNat_of_lt' (hsize hv), UInt8.toNat_ofNat_of_lt' (hsize hw)] at hbyte
    omega

lemma canonicalNameSubstFrom_eq_some {ns : List Bytes} (hnd : ns.Nodup) {k : ℕ} {x : Bytes} {t : MonoType} :
    canonicalNameSubstFrom k ns x = some t ↔
      ∃ i, ns[i]? = some x ∧ x ≠ canonicalName (k + i) ∧ t = .tvar (canonicalName (k + i)) := by
  induction ns generalizing k with
  | nil => simp [canonicalNameSubstFrom]
  | cons n ns ih =>
    obtain ⟨hn, hns⟩ := List.nodup_cons.mp hnd
    have hrest : (∃ i, (n :: ns)[i + 1]? = some x ∧ x ≠ canonicalName (k + (i + 1)) ∧
        t = .tvar (canonicalName (k + (i + 1)))) ↔ canonicalNameSubstFrom (k + 1) ns x = some t := by
      rw [ih hns]
      simp only [List.getElem?_cons_succ, Nat.add_assoc, Nat.add_comm 1]
    rw [← Nat.or_exists_add_one, hrest, canonicalNameSubstFrom]
    simp only [List.getElem?_cons_zero, Nat.add_zero]
    by_cases hx : x = n
    · subst hx
      have hnone : canonicalNameSubstFrom (k + 1) ns x ≠ some t := by
        rw [Ne, ih hns]
        rintro ⟨i, hi, -⟩
        exact hn (List.mem_of_getElem? hi)
      by_cases hc : x = canonicalName k <;> grind
    · grind

/-! ### Counted variables -/

@[simp] lemma freeTVars_normIfOpaquePtr (t : MonoType) : (normIfOpaquePtr t).freeTVars = t.freeTVars := by
  cases t <;> rfl

lemma mem_variantTVars {v : Bytes} {ms : List (Variant.Member MonoType)} :
    v ∈ variantTVars ms ↔ ∃ m ∈ ms, v ∈ m.type.freeTVars := by
  induction ms with
  | nil => simp [variantTVars]
  | cons m ms ih =>
    obtain ⟨_, t, _⟩ := m
    simp [variantTVars, ih]

lemma mem_recordTVars {v : Bytes} {ms : List (Record.Member MonoType)} :
    v ∈ recordTVars ms ↔ ∃ m ∈ ms, v ∈ m.type.freeTVars := by
  induction ms with
  | nil => simp [recordTVars]
  | cons m ms ih =>
    obtain ⟨_, t, _⟩ := m
    simp [recordTVars, ih]

lemma mem_tvarNames {v : Bytes} {ts : List MonoType} : v ∈ tvarNames ts ↔ ∃ t ∈ ts, v ∈ t.freeTVars := by
  induction ts with
  | nil => simp [tvarNames]
  | cons t ts ih => simp [tvarNames, ih]

/-- The variables that are counted in a type are those that are in its parts, but for those of a type abstraction, and
of a primitive type's representation. -/
lemma mem_freeTVars_iff {v : Bytes} {t : MonoType} (hprim : ∀ nm r, t ≠ .prim nm r)
    (htabs : ∀ targns b, t ≠ .tabs targns b) :
    v ∈ t.freeTVars ↔ t = .tvar v ∨ ∃ c ∈ t.children, v ∈ c.type.freeTVars ∧ v ∉ c.binds := by
  cases t with
  | prim nm r => exact absurd rfl (hprim nm r)
  | tabs targns b => exact absurd rfl (htabs targns b)
  | tvar nm => simp [MonoType.freeTVars, MonoType.children, eq_comm]
  | tapp f targs => simp [MonoType.freeTVars, MonoType.children, mem_tvarNames]
  | variant ms => simp [MonoType.freeTVars, MonoType.children, mem_variantTVars]
  | record ms => simp [MonoType.freeTVars, MonoType.children, mem_recordTVars]
  | _ => simp [MonoType.freeTVars, MonoType.children]

lemma append_subset_append {α : Type} {as bs as' bs' : List α} (h : as ⊆ as') (h' : bs ⊆ bs') : as ++ bs ⊆ as' ++ bs' :=
  List.append_subset.mpr ⟨List.subset_append_of_subset_left _ h, List.subset_append_of_subset_right _ h'⟩

lemma filter_subset_filter {α : Type} {as bs : List α} (h : as ⊆ bs) (p : α → Bool) : as.filter p ⊆ bs.filter p := by
  intro a ha
  rw [List.mem_filter] at ha ⊢
  exact ⟨h ha.1, ha.2⟩

lemma freeTVars_subset_fv (t : MonoType) : t.freeTVars ⊆ t.fv := by
  induction t with
  | prim nm r ih =>
    cases r with
    | none => exact List.Subset.refl _
    | some r => exact ih r rfl
  | tabs targns b _ => exact List.nil_subset _
  | opaquePtr => exact List.nil_subset _
  | tvar nm => exact List.Subset.refl _
  | tgen => exact List.nil_subset _
  | tstring => exact List.nil_subset _
  | tlong => exact List.nil_subset _
  | tapp f targs hf htargs =>
    intro v hv
    simp only [MonoType.freeTVars, MonoType.fv, List.mem_append, mem_tvarNames, mem_typesFv] at hv ⊢
    rcases hv with hv | ⟨t, ht, hv⟩
    · exact .inl (hf hv)
    · exact .inr ⟨t, ht, htargs t ht hv⟩
  | fixedArray ty len hty hlen => exact append_subset_append hty hlen
  | array ty hty => exact hty
  | variant ms ih =>
    intro v hv
    simp only [MonoType.freeTVars, MonoType.fv, mem_variantTVars, mem_variantFv] at hv ⊢
    obtain ⟨m, hm, hv⟩ := hv
    exact ⟨m, hm, ih m hm hv⟩
  | record ms ih =>
    intro v hv
    simp only [MonoType.freeTVars, MonoType.fv, mem_recordTVars, mem_recordFv] at hv ⊢
    obtain ⟨m, hm, hv⟩ := hv
    exact ⟨m, hm, ih m hm hv⟩
  | func aty rty haty hrty => exact append_subset_append haty hrty
  | existsType tname bty ih => exact filter_subset_filter ih _
  | recursive tname bty ih => exact filter_subset_filter ih _

/-! ### Names -/

namespace Subject

variable {x : Subject}

lemma mem_names {v : Bytes} : v ∈ x.names ↔ ∃ t ∈ x.types, v ∈ t.freeTVars := by
  rw [names, List.mem_insertionSort, List.mem_dedup, mem_tvarNames]

lemma nodup_names (x : Subject) : x.names.Nodup :=
  (List.perm_insertionSort _ _).nodup_iff.mpr (List.nodup_dedup _)

lemma pairwise_names (x : Subject) : x.names.Pairwise stringLe := List.pairwise_insertionSort _ _

lemma mem_fv_of_mem_names {v : Bytes} (h : v ∈ x.names) : v ∈ x.fv := by
  obtain ⟨t, ht, hv⟩ := mem_names.mp h
  exact ⟨t, ht, freeTVars_subset_fv t hv⟩

/-- The image of a name is the canonical one for its place, if it is another. -/
lemma canonicalNameSubst_eq_some {v : Bytes} {t : MonoType} : canonicalNameSubst x.names v = some t ↔
    ∃ i, x.names[i]? = some v ∧ v ≠ canonicalName i ∧ t = .tvar (canonicalName i) := by
  rw [canonicalNameSubst, canonicalNameSubstFrom_eq_some x.nodup_names]
  simp only [Nat.zero_add]

lemma canonicalNameSubst_of_getElem? {v : Bytes} {i : ℕ} (h : x.names[i]? = some v) :
    canonicalNameSubst x.names v = if v = canonicalName i then none else some (.tvar (canonicalName i)) := by
  split_ifs with hv
  · cases hs : canonicalNameSubst x.names v with
    | none => rfl
    | some t =>
      obtain ⟨j, hj, hne, -⟩ := canonicalNameSubst_eq_some.mp hs
      have hij : i = j := (List.getElem?_inj (List.getElem?_eq_some_iff.mp h).1 x.nodup_names).mp (h.trans hj.symm)
      exact absurd (hij ▸ hv) hne
  · exact canonicalNameSubst_eq_some.mpr ⟨i, h, hv, rfl⟩

lemma canonicalNameSubst_of_notMem {v : Bytes} (h : v ∉ x.names) : canonicalNameSubst x.names v = none := by
  cases hs : canonicalNameSubst x.names v with
  | none => rfl
  | some t =>
    obtain ⟨i, hi, -⟩ := canonicalNameSubst_eq_some.mp hs
    exact absurd (List.mem_of_getElem? hi) h

end Subject

end Hobbes.Lang
