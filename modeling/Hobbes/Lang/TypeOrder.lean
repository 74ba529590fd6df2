import Hobbes.Core.TreeOrder
import Hobbes.Lang.Unifier

/-!
# The order of types

The keys of a type map are ordered by the kinds of types, then by what a type has of its own, and then by its parts. A
record's members are also compared by their offsets, that follow from the members' types and are given. The order is a
strict total one, so that types are told apart by it exactly.
-/

namespace Hobbes.Lang

open Core Term

/-! ### Constructors -/

namespace TyCtor

/-- `type_case_id`. That of a variable is 2. -/
def caseId : TyCtor → ℕ
  | prim _ => 0
  | opaquePtr _ => 1
  | tgen _ => 3
  | fixedArray => 4
  | array => 5
  | variant _ => 6
  | record _ => 7
  | func => 8
  | tstring _ => 10
  | tlong _ => 11
  | tapp => 12

/-- `name()`, or `value()` of a `TString`. -/
def name : TyCtor → Bytes
  | prim nm => nm
  | opaquePtr nm => nm
  | tstring val => val
  | _ => []

/-- `id()` of a `TGen`, `value()` of a `TLong`. -/
def number : TyCtor → ℤ
  | tgen x => x
  | tlong x => x.toInt
  | _ => 0

/-- The members' selectors or fields. -/
def memberNames : TyCtor → List Bytes
  | variant ctors => ctors.map Prod.fst
  | record fields => fields
  | _ => []

/-- The members' ids or offsets. -/
def memberIds (off : List Bytes → List TyTerm → ℕ → ℤ) (ts : List TyTerm) : TyCtor → List ℤ
  | variant ctors => ctors.map fun c => (c.2.toNat : ℤ)
  | record fields => fields.mapIdx fun i _ => off fields ts i
  | _ => []

lemma ctors_eq {cs ds : List (Bytes × BitVec 32)} (hnames : cs.map Prod.fst = ds.map Prod.fst)
    (hids : (cs.map fun c => (c.2.toNat : ℤ)) = ds.map fun c => (c.2.toNat : ℤ)) : cs = ds := by
  induction cs generalizing ds with
  | nil =>
    cases ds with
    | nil => rfl
    | cons d ds => cases hnames
  | cons c cs ih =>
    cases ds with
    | nil => cases hnames
    | cons d ds =>
      simp only [List.map_cons, List.cons.injEq] at hnames hids
      have hid : c.2 = d.2 := BitVec.eq_of_toNat_eq (Int.ofNat_inj.mp hids.1)
      rw [Prod.ext hnames.1 hid, ih hnames.2 hids.2]

lemma eq_of_contents {off : List Bytes → List TyTerm → ℕ → ℤ} {ls rs : List TyTerm} {c d : TyCtor}
    (hcase : c.caseId = d.caseId) (hname : c.name = d.name) (hnumber : c.number = d.number)
    (hnames : c.memberNames = d.memberNames) (hids : c.memberIds off ls = d.memberIds off rs) : c = d := by
  cases c <;> cases d <;> first | rfl | (simp [caseId] at hcase; done) | skip
  · exact congrArg prim hname
  · exact congrArg opaquePtr hname
  · exact congrArg tgen (Int.ofNat_inj.mp hnumber)
  · exact congrArg variant (ctors_eq hnames hids)
  · exact congrArg record hnames
  · exact congrArg tstring hname
  · exact congrArg tlong (BitVec.eq_of_toInt_eq hnumber)

end TyCtor

/-! ### Types -/

section

variable (off : List Bytes → List TyTerm → ℕ → ℤ)

mutual

/-- What `MonoTypeLT` says of the left and the right type, and of these the other way round. What a kind of types does
not have is the same on both sides. -/
def monoTypeOrd : TyTerm → TyTerm → Ordering
  | .var l, .var r => compare l r
  | .var _, .app d _ => compare 2 d.caseId
  | .app c _, .var _ => compare c.caseId 2
  | .app c ls, .app d rs =>
    (compare c.caseId d.caseId).then <| (compare c.name d.name).then <| (compare c.number d.number).then <|
      (compare c.memberNames.length d.memberNames.length).then <|
        typesOrd c.memberNames d.memberNames (c.memberIds off ls) (d.memberIds off rs) ls rs

/-- The parts, one after the other, where members are compared by their names and ids first. Only of the arguments of
a `TApp`, that come after its function, there may be more on one side. -/
def typesOrd (ns ns' : List Bytes) (ids ids' : List ℤ) : List TyTerm → List TyTerm → Ordering
  | [], [] => (compare ns ns').then (compare ids ids')
  | [], _ :: _ => .lt
  | _ :: _, [] => .gt
  | l :: ls, r :: rs =>
    (compare ns.head? ns'.head?).then <| (compare ids.head? ids'.head?).then <| (monoTypeOrd l r).then <|
      (compare ls.length rs.length).then <| typesOrd ns.tail ns'.tail ids.tail ids'.tail ls rs

end

def MonoTypeLT (l r : TyTerm) : Prop := monoTypeOrd off l r = .lt

instance : DecidableRel (MonoTypeLT off) := fun l r => inferInstanceAs (Decidable (monoTypeOrd off l r = .lt))

/-! ### A total order -/

variable {off}

lemma eq_of_head_tail {α : Type} {as bs : List α} (hhead : as.head? = bs.head?) (htail : as.tail = bs.tail) :
    as = bs := by
  cases as <;> cases bs <;> simp_all

lemma typesOrd_eq {ls rs : List TyTerm} (h : ∀ l ∈ ls, ∀ r, monoTypeOrd off l r = .eq → l = r)
    {ns ns' : List Bytes} {ids ids' : List ℤ} (heq : typesOrd off ns ns' ids ids' ls rs = .eq) :
    ns = ns' ∧ ids = ids' ∧ ls = rs := by
  induction ls generalizing rs ns ns' ids ids' with
  | nil =>
    cases rs with
    | cons r rs => cases heq
    | nil =>
      rw [typesOrd, Ordering.then_eq_eq, Std.LawfulEqOrd.compare_eq_iff_eq, Std.LawfulEqOrd.compare_eq_iff_eq] at heq
      exact ⟨heq.1, heq.2, rfl⟩
  | cons l ls ih =>
    cases rs with
    | nil => cases heq
    | cons r rs =>
      simp only [typesOrd, Ordering.then_eq_eq, Std.LawfulEqOrd.compare_eq_iff_eq] at heq
      obtain ⟨hname, hid, hl, -, hrest⟩ := heq
      obtain ⟨hnames, hids, hls⟩ := ih (fun l hl => h l (List.mem_cons_of_mem _ hl)) hrest
      exact ⟨eq_of_head_tail hname hnames, eq_of_head_tail hid hids,
        congrArg₂ List.cons (h l List.mem_cons_self r hl) hls⟩

lemma eq_of_monoTypeOrd {l r : TyTerm} (h : monoTypeOrd off l r = .eq) : l = r := by
  induction l using Term.induct generalizing r with
  | var x =>
    cases r with
    | var y =>
      rw [monoTypeOrd, Std.LawfulEqOrd.compare_eq_iff_eq] at h
      exact congrArg var h
    | app d rs => cases d <;> cases h
  | app c ls ih =>
    cases r with
    | var y => cases c <;> cases h
    | app d rs =>
      simp only [monoTypeOrd, Ordering.then_eq_eq, Std.LawfulEqOrd.compare_eq_iff_eq] at h
      obtain ⟨hcase, hname, hnumber, -, htypes⟩ := h
      obtain ⟨hnames, hids, hls⟩ := typesOrd_eq (fun l hl r hr => ih l hl hr) htypes
      exact congrArg₂ app (TyCtor.eq_of_contents hcase hname hnumber hnames hids) hls

lemma typesOrd_self {ls : List TyTerm} (h : ∀ l ∈ ls, monoTypeOrd off l l = .eq) (ns : List Bytes) (ids : List ℤ) :
    typesOrd off ns ns ids ids ls ls = .eq := by
  induction ls generalizing ns ids with
  | nil => simp [typesOrd]
  | cons l ls ih =>
    obtain ⟨hl, hls⟩ := List.forall_mem_cons.mp h
    simp [typesOrd, hl, ih hls]

lemma monoTypeOrd_self (l : TyTerm) : monoTypeOrd off l l = .eq := by
  induction l using Term.induct with
  | var x => simp [monoTypeOrd]
  | app c ls ih => simp [monoTypeOrd, typesOrd_self ih]

lemma fits_typesOrd {ls : List TyTerm}
    (h : ∀ l ∈ ls, ∀ m r, Fits (monoTypeOrd off l m) (monoTypeOrd off m r) (monoTypeOrd off l r))
    (ms rs : List TyTerm) (ns₁ ns₂ ns₃ : List Bytes) (ids₁ ids₂ ids₃ : List ℤ) :
    Fits (typesOrd off ns₁ ns₂ ids₁ ids₂ ls ms) (typesOrd off ns₂ ns₃ ids₂ ids₃ ms rs)
      (typesOrd off ns₁ ns₃ ids₁ ids₃ ls rs) := by
  induction ls generalizing ms rs ns₁ ns₂ ns₃ ids₁ ids₂ ids₃ with
  | nil =>
    cases ms <;> cases rs
    · exact (fits_compare ..).then (fits_compare ..)
    all_goals constructor <;> simp [typesOrd]
  | cons l ls ih =>
    cases ms <;> cases rs
    rotate_right
    · obtain ⟨hl, hls⟩ := List.forall_mem_cons.mp h
      exact (fits_compare ..).then <| (fits_compare ..).then <| (hl ..).then <| (fits_compare ..).then <| ih hls ..
    all_goals constructor <;> simp [typesOrd]

/-- The kind of a type. -/
def kind : TyTerm → ℕ
  | .var _ => 2
  | .app c _ => c.caseId

lemma caseId_ne (c : TyCtor) : c.caseId ≠ 2 := by cases c <;> simp [TyCtor.caseId]

lemma monoTypeOrd_kind (l r : TyTerm) :
    monoTypeOrd off l r = (compare (kind l) (kind r)).then (monoTypeOrd off l r) := by
  have hsame : ∀ x : Ordering, x.then x = x := fun x => by cases x <;> rfl
  cases l with
  | var x =>
    cases r with
    | var y => simp [kind]
    | app d rs => exact (hsame _).symm
  | app c ls =>
    cases r with
    | var y => exact (hsame _).symm
    | app d rs =>
      rw [kind, kind, monoTypeOrd]
      cases compare c.caseId d.caseId <;> rfl

lemma fits_monoTypeOrd (l m r : TyTerm) :
    Fits (monoTypeOrd off l m) (monoTypeOrd off m r) (monoTypeOrd off l r) := by
  induction l using Term.induct generalizing m r with
  | var x =>
    rw [monoTypeOrd_kind (var x) m, monoTypeOrd_kind m r, monoTypeOrd_kind (var x) r]
    refine (fits_compare _ _ _).then_of fun hm hr => ?_
    rw [Std.LawfulEqOrd.compare_eq_iff_eq] at hm hr
    cases m with
    | app c ms => exact absurd hm.symm (caseId_ne c)
    | var y =>
      cases r with
      | app d rs => exact absurd hr.symm (caseId_ne d)
      | var z => exact fits_compare x y z
  | app c ls ih =>
    rw [monoTypeOrd_kind (app c ls) m, monoTypeOrd_kind m r, monoTypeOrd_kind (app c ls) r]
    refine (fits_compare _ _ _).then_of fun hm hr => ?_
    rw [Std.LawfulEqOrd.compare_eq_iff_eq] at hm hr
    cases m with
    | var y => exact absurd hm (caseId_ne c)
    | app d ms =>
      cases r with
      | var z => exact absurd hr (caseId_ne d)
      | app e rs =>
        exact (fits_compare ..).then <| (fits_compare ..).then <| (fits_compare ..).then <| (fits_compare ..).then <|
          fits_typesOrd ih ..

lemma monoTypeOrd_swap (l r : TyTerm) : monoTypeOrd off l r = (monoTypeOrd off r l).swap :=
  Fits.swap ((monoTypeOrd_self l : monoTypeOrd off l l = .eq) ▸ fits_monoTypeOrd l r l)

/-- The order is total, and only equal types are equal in it. -/
instance : Std.TransCmp (monoTypeOrd off) where
  eq_swap := monoTypeOrd_swap _ _
  isLE_trans {l m r} hlm hmr := (fits_monoTypeOrd l m r).isLE hlm hmr

instance : Std.LawfulEqCmp (monoTypeOrd off) where
  compare_self := monoTypeOrd_self _
  eq_of_compare := eq_of_monoTypeOrd

end

end Hobbes.Lang
