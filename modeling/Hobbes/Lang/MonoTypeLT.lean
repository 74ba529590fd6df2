import Hobbes.Core.TreeOrder
import Hobbes.Lang.TypeCodecRoundTrip
import Mathlib.Data.Int.Notation

/-!
# The order of the keys of type maps

`MonoTypeLT` compares types by what they consist of. An array that was made of an opaque pointer stored contiguously is
hash-consed as such, but returns its type without the flag. So it is another type than the array of the plain pointer,
and none of both is less.
-/

namespace Hobbes.Lang

open Core

/-- `operator<` of numbers, of strings and of sequences of strings. -/
def less {α : Type} [Ord α] (a b : α) : Bool := compare a b == .lt

namespace MonoType

/-- `type_case_id` -/
def caseId : MonoType → ℕ
  | .prim _ _ => 0
  | .opaquePtr _ _ _ => 1
  | .tvar _ => 2
  | .tgen _ => 3
  | .fixedArray _ _ => 4
  | .array _ => 5
  | .variant _ => 6
  | .record _ => 7
  | .func _ _ => 8
  | .existsType _ _ => 9
  | .tstring _ => 10
  | .tlong _ => 11
  | .tapp _ _ => 12
  | .recursive _ _ => 13
  | .tabs _ _ => 15

lemma sizeOf_normIfOpaquePtr (t : MonoType) : SizeOf.sizeOf (normIfOpaquePtr t) ≤ SizeOf.sizeOf t := by
  cases t <;> simp [normIfOpaquePtr, OpaquePtr.make]

section

variable [DecidableEq MonoType]

mutual

/-- `MonoTypeLT` -/
def lt (lhs rhs : MonoType) : Bool :=
  if lhs = rhs then false
  else if lhs.caseId ≠ rhs.caseId then less lhs.caseId rhs.caseId
  else mtyLT lhs rhs
termination_by (SizeOf.sizeOf lhs + SizeOf.sizeOf rhs, 1)

/-- `mtyLT`, for types of one kind. -/
def mtyLT : MonoType → MonoType → Bool
  | .prim nm _, .prim nm' _ => less nm nm'
  | .tvar nm, .tvar nm' => less nm nm'
  | .tgen x, .tgen x' => less x.toInt x'.toInt
  | .array ty, .array ty' => lt (normIfOpaquePtr ty) (normIfOpaquePtr ty')
  | .tstring val, .tstring val' => less val val'
  | .tlong x, .tlong x' => less x.toInt x'.toInt
  | .tabs args b, .tabs args' b' =>
    if less args args' then true
    else if less args' args then false
    else lt b b'
  | .tapp f largs, .tapp f' rargs =>
    if lt f f' then true
    else if lt f' f then false
    else if largs.length < rargs.length then true
    else if rargs.length < largs.length then false
    else typesLT largs rargs
  | .opaquePtr nm sz scontig, .opaquePtr nm' sz' scontig' =>
    if nm ≠ nm' then less nm nm'
    else if scontig ≠ scontig' then less scontig scontig'
    else if scontig then less sz.toNat sz'.toNat
    else false
  | .fixedArray ty len, .fixedArray ty' len' =>
    if lt (normIfOpaquePtr ty) (normIfOpaquePtr ty') then true
    else if lt (normIfOpaquePtr ty') (normIfOpaquePtr ty) then false
    else if lt len len' then true
    else if lt len' len then false
    else false
  | .func aty rty, .func aty' rty' =>
    if lt aty aty' then true
    else if lt aty' aty then false
    else if lt rty rty' then true
    else if lt rty' rty then false
    else false
  | .variant ms, .variant ms' =>
    if ms.length ≠ ms'.length then less ms.length ms'.length
    else variantLT ms ms'
  | .record ms, .record ms' =>
    if ms.length ≠ ms'.length then less ms.length ms'.length
    else recordLT ms ms'
  | .existsType tname bty, .existsType tname' bty' =>
    if tname ≠ tname' then less tname tname'
    else lt bty bty'
  | .recursive tname bty, .recursive tname' bty' =>
    if tname ≠ tname' then less tname tname'
    else lt bty bty'
  -- `right` throws, but the kinds are the same.
  | _, _ => false
termination_by lhs rhs => (SizeOf.sizeOf lhs + SizeOf.sizeOf rhs, 0)
decreasing_by
  all_goals simp_wf
  all_goals first
    | omega
    | (have h := sizeOf_normIfOpaquePtr ty
       have h' := sizeOf_normIfOpaquePtr ty'
       omega)

def typesLT : List MonoType → List MonoType → Bool
  | l :: ls, r :: rs =>
    if lt l r then true
    else if lt r l then false
    else typesLT ls rs
  | _, _ => false
termination_by ls rs => (SizeOf.sizeOf ls + SizeOf.sizeOf rs, 0)

def variantLT : List (Variant.Member MonoType) → List (Variant.Member MonoType) → Bool
  | ⟨selector, type, id⟩ :: ls, ⟨selector', type', id'⟩ :: rs =>
    if selector ≠ selector' then less selector selector'
    else if id ≠ id' then less id.toNat id'.toNat
    else if lt type type' then true
    else if lt type' type then false
    else variantLT ls rs
  | _, _ => false
termination_by ls rs => (SizeOf.sizeOf ls + SizeOf.sizeOf rs, 0)

def recordLT : List (Record.Member MonoType) → List (Record.Member MonoType) → Bool
  | ⟨field, type, offset⟩ :: ls, ⟨field', type', offset'⟩ :: rs =>
    if field ≠ field' then less field field'
    else if offset ≠ offset' then less offset.toInt offset'.toInt
    else if lt type type' then true
    else if lt type' type then false
    else recordLT ls rs
  | _, _ => false
termination_by ls rs => (SizeOf.sizeOf ls + SizeOf.sizeOf rs, 0)

end

end

/-! ### What is compared -/

mutual

/-- A type with the elements of its arrays as these return them. -/
@[simp] def asRead : MonoType → MonoType
  | .prim nm t => .prim nm t
  | .opaquePtr nm sz scontig => .opaquePtr nm sz scontig
  | .tvar nm => .tvar nm
  | .tgen x => .tgen x
  | .tabs targns b => .tabs targns b.asRead
  | .tapp f targs => .tapp f.asRead (typesAsRead targs)
  | .fixedArray ty len => .fixedArray (normIfOpaquePtr ty.asRead) len.asRead
  | .array ty => .array (normIfOpaquePtr ty.asRead)
  | .variant ms => .variant (variantAsRead ms)
  | .record ms => .record (recordAsRead ms)
  | .func aty rty => .func aty.asRead rty.asRead
  | .existsType tname bty => .existsType tname bty.asRead
  | .recursive tname bty => .recursive tname bty.asRead
  | .tstring val => .tstring val
  | .tlong x => .tlong x

def typesAsRead : List MonoType → List MonoType
  | [] => []
  | t :: ts => t.asRead :: typesAsRead ts

def variantAsRead : List (Variant.Member MonoType) → List (Variant.Member MonoType)
  | [] => []
  | ⟨selector, type, id⟩ :: ms => ⟨selector, type.asRead, id⟩ :: variantAsRead ms

def recordAsRead : List (Record.Member MonoType) → List (Record.Member MonoType)
  | [] => []
  | ⟨field, type, offset⟩ :: ms => ⟨field, type.asRead, offset⟩ :: recordAsRead ms

end

lemma typesAsRead_eq (ts : List MonoType) : typesAsRead ts = ts.map asRead := by
  induction ts with
  | nil => rfl
  | cons t ts ih => rw [typesAsRead, ih, List.map_cons]

lemma variantAsRead_eq (ms : List (Variant.Member MonoType)) :
    variantAsRead ms = ms.map fun m => { m with type := m.type.asRead } := by
  induction ms with
  | nil => rfl
  | cons m ms ih => rw [variantAsRead, ih, List.map_cons]

lemma recordAsRead_eq (ms : List (Record.Member MonoType)) :
    recordAsRead ms = ms.map fun m => { m with type := m.type.asRead } := by
  induction ms with
  | nil => rfl
  | cons m ms ih => rw [recordAsRead, ih, List.map_cons]

/-- The kind of a type, names and a number. -/
abbrev Label := ℕ × List Bytes × ℤ

def labelOrd (a b : Label) : Ordering :=
  (compare a.1 b.1).then <| (compare a.2.1 b.2.1).then (compare a.2.2 b.2.2)

instance : Std.TransCmp labelOrd := by
  have hfits : ∀ a b c, Fits (labelOrd a b) (labelOrd b c) (labelOrd a c) := fun a b c =>
    (fits_compare ..).then ((fits_compare ..).then (fits_compare ..))
  have hself : ∀ a, labelOrd a a = .eq := fun a => by simp [labelOrd]
  exact { eq_swap := fun {a b} => (hself a ▸ hfits a b a).swap
          isLE_trans := fun {a b c} hab hbc => (hfits a b c).isLE hab hbc }

instance : Std.LawfulEqCmp labelOrd where
  compare_self := by simp [labelOrd]
  eq_of_compare {a b} h := by
    simp only [labelOrd, Ordering.then_eq_eq, Std.LawfulEqOrd.compare_eq_iff_eq] at h
    exact Prod.ext h.1 (Prod.ext h.2.1 h.2.2)

mutual

/-- What is compared of a type, in order. -/
@[simp] def key : MonoType → OrdTree Label
  | .prim nm _ => .node (0, [nm], 0) []
  | .opaquePtr nm sz scontig => .node (1, [nm], scontig.toInt) [.node (0, [], if scontig then sz.toNat else 0) []]
  | .tvar nm => .node (2, [nm], 0) []
  | .tgen x => .node (3, [], x.toInt) []
  | .fixedArray ty len => .node (4, [], 0) [ty.key, len.key]
  | .array ty => .node (5, [], 0) [ty.key]
  | .variant ms => .node (6, [], 0) (variantKeys ms)
  | .record ms => .node (7, [], 0) (recordKeys ms)
  | .func aty rty => .node (8, [], 0) [aty.key, rty.key]
  | .existsType tname bty => .node (9, [tname], 0) [bty.key]
  | .tstring val => .node (10, [val], 0) []
  | .tlong x => .node (11, [], x.toInt) []
  | .tapp f targs => .node (12, [], 0) [f.key, .node (0, [], 0) (typesKeys targs)]
  | .recursive tname bty => .node (13, [tname], 0) [bty.key]
  | .tabs targns b => .node (15, targns, 0) [b.key]

def typesKeys : List MonoType → List (OrdTree Label)
  | [] => []
  | t :: ts => t.key :: typesKeys ts

def variantKeys : List (Variant.Member MonoType) → List (OrdTree Label)
  | [] => []
  | ⟨selector, type, id⟩ :: ms => .node (0, [selector], id.toNat) [type.key] :: variantKeys ms

def recordKeys : List (Record.Member MonoType) → List (OrdTree Label)
  | [] => []
  | ⟨field, type, offset⟩ :: ms => .node (0, [field], offset.toInt) [type.key] :: recordKeys ms

end

lemma typesKeys_eq (ts : List MonoType) : typesKeys ts = ts.map key := by
  induction ts with
  | nil => rfl
  | cons t ts ih => rw [typesKeys, ih, List.map_cons]

lemma variantKeys_eq (ms : List (Variant.Member MonoType)) :
    variantKeys ms = ms.map fun m => .node (0, [m.selector], m.id.toNat) [m.type.key] := by
  induction ms with
  | nil => rfl
  | cons m ms ih => rw [variantKeys, ih, List.map_cons]

lemma recordKeys_eq (ms : List (Record.Member MonoType)) :
    recordKeys ms = ms.map fun m => .node (0, [m.field], m.offset.toInt) [m.type.key] := by
  induction ms with
  | nil => rfl
  | cons m ms ih => rw [recordKeys, ih, List.map_cons]

/-- What the comparisons of two types both ways come to. -/
def ord (l r : MonoType) : Ordering := OrdTree.compare labelOrd l.asRead.key r.asRead.key

lemma ord_swap (l r : MonoType) : ord l r = (ord r l).swap := OrdTree.compare_swap _ _

lemma ord_self (l : MonoType) : ord l l = .eq := OrdTree.compare_self _

lemma asRead_normIfOpaquePtr (t : MonoType) : (normIfOpaquePtr t).asRead = normIfOpaquePtr t.asRead := by
  cases t <;> simp [normIfOpaquePtr, OpaquePtr.make, asRead]

/-- The kind is compared first. -/
lemma exists_key (t : MonoType) : ∃ names z ts, t.asRead.key = .node (t.caseId, names, z) ts := by
  cases t <;> simp [caseId]

lemma ord_of_caseId_ne {l r : MonoType} (h : l.caseId ≠ r.caseId) : ord l r = compare l.caseId r.caseId := by
  obtain ⟨names, z, ts, hl⟩ := exists_key l
  obtain ⟨names', z', ts', hr⟩ := exists_key r
  rw [ord, hl, hr, OrdTree.compare, labelOrd]
  cases hcmp : compare l.caseId r.caseId with
  | eq => exact absurd (Std.LawfulEqOrd.eq_of_compare hcmp) h
  | lt => rfl
  | gt => rfl

lemma compare_natCast (a b : ℕ) : compare (a : ℤ) b = compare a b := by
  rcases Nat.lt_trichotomy a b with h | rfl | h
  · rw [Nat.compare_eq_lt.mpr h, Int.compare_eq_lt.mpr (Int.ofNat_lt.mpr h)]
  · rw [Nat.compare_eq_eq.mpr rfl, Int.compare_eq_eq.mpr rfl]
  · rw [Nat.compare_eq_gt.mpr h, Int.compare_eq_gt.mpr (Int.ofNat_lt.mpr h)]

/-! ### Comparisons by `operator<` -/

lemma ite_less {o o' : Ordering} {a b x : Bool} (ha : a = (o == .lt)) (hb : b = (o.swap == .lt))
    (hx : x = (o' == .lt)) : (if a then true else if b then false else x) = (o.then o' == .lt) := by
  subst ha hb hx
  cases o <;> rfl

lemma ite_ne {α : Type} [Ord α] [Std.LawfulEqOrd α] [DecidableEq α] {a b : α} {o : Ordering} {x : Bool}
    (hx : x = (o == .lt)) : (if a ≠ b then less a b else x) = ((compare a b).then o == .lt) := by
  by_cases hab : a = b
  · rw [if_neg (not_not.mpr hab), hab, hx, Std.ReflOrd.compare_self]
    rfl
  · rw [if_pos hab, less]
    cases hcmp : compare a b with
    | eq => exact absurd (Std.LawfulEqOrd.eq_of_compare hcmp) hab
    | lt => rfl
    | gt => rfl

/-- Lengths are compared before the elements are. -/
lemma ite_length {m n : ℕ} {o : Ordering} {x : Bool} (hx : m = n → x = (o == .lt)) :
    (if m < n then true else if n < m then false else x) = ((compare m n).then o == .lt) := by
  rcases Nat.lt_trichotomy m n with h | rfl | h
  · rw [if_pos h, Nat.compare_eq_lt.mpr h]
    rfl
  · rw [if_neg (Nat.lt_irrefl m), if_neg (Nat.lt_irrefl m), hx rfl, Nat.compare_eq_eq.mpr rfl]
    rfl
  · rw [if_neg (Nat.lt_asymm h), if_pos h, Nat.compare_eq_gt.mpr h]
    rfl

lemma ite_length_ne {m n : ℕ} {o : Ordering} {x : Bool} (hx : m = n → x = (o == .lt)) :
    (if m ≠ n then less m n else x) = ((compare m n).then o == .lt) := by
  by_cases h : m = n
  · exact ite_ne (hx h)
  · rw [if_pos h, ← ite_ne (a := m) (b := n) (o := o) (x := o == .lt) rfl, if_pos h]

section

variable [DecidableEq MonoType]

/-- What is returned for two types, either way. -/
def Both (l r : MonoType) : Prop := lt l r = (ord l r == .lt) ∧ lt r l = (ord r l == .lt)

lemma Both.symm {l r : MonoType} (h : Both l r) : Both r l := ⟨h.2, h.1⟩

lemma lt_of_mtyLT {l r : MonoType} (h : l.caseId = r.caseId → mtyLT l r = (ord l r == .lt)) :
    lt l r = (ord l r == .lt) := by
  rw [lt]
  split_ifs with heq hne
  · rw [heq, ord_self]
    rfl
  · rw [ord_of_caseId_ne hne, less]
  · exact h (not_not.mp hne)

lemma both_of_mtyLT {l r : MonoType}
    (h : l.caseId = r.caseId → mtyLT l r = (ord l r == .lt) ∧ mtyLT r l = (ord r l == .lt)) : Both l r :=
  ⟨lt_of_mtyLT fun heq => (h heq).1, lt_of_mtyLT fun heq => (h heq.symm).2⟩

/-- Two comparisons, one after the other, where the second one is the last. -/
lemma ite_both {a b : MonoType} (h : Both a b) {o : Ordering} {x : Bool} (hx : x = (o == .lt)) :
    (if lt a b then true else if lt b a then false else x) = ((ord a b).then o == .lt) :=
  ite_less h.1 (by rw [h.2, ord_swap]) hx

lemma ite_both_last {a b : MonoType} (h : Both a b) :
    (if lt a b then true else if lt b a then false else false) = (ord a b == .lt) := by
  have := ite_both h (o := .eq) (x := false) rfl
  rwa [Ordering.then_eq] at this

/-! ### Each kind -/

lemma mtyLT_tabs {args args' : List Bytes} {b b' : MonoType} (h : Both b b') :
    mtyLT (.tabs args b) (.tabs args' b') = (ord (.tabs args b) (.tabs args' b') == .lt) := by
  have hargs : less args' args = ((compare args args').swap == .lt) := by rw [less, Std.OrientedOrd.eq_swap]
  rw [mtyLT]
  refine (ite_less rfl hargs h.1).trans ?_
  simp [ord, OrdTree.compare, OrdTree.compareEach, labelOrd]

lemma mtyLT_opaquePtr (nm nm' : Bytes) (sz sz' : BitVec 32) (scontig scontig' : Bool) :
    mtyLT (.opaquePtr nm sz scontig) (.opaquePtr nm' sz' scontig') =
      (ord (.opaquePtr nm sz scontig) (.opaquePtr nm' sz' scontig') == .lt) := by
  have hflag : (if scontig ≠ scontig' then less scontig scontig'
      else if scontig then less sz.toNat sz'.toNat else false) =
      ((compare scontig.toInt scontig'.toInt).then (compare (if scontig then (sz.toNat : ℤ) else 0)
        (if scontig' then sz'.toNat else 0)) == .lt) := by
    cases scontig <;> cases scontig'
    · rfl
    · rfl
    · rfl
    · exact congrArg (· == .lt) (compare_natCast sz.toNat sz'.toNat).symm
  rw [mtyLT, ite_ne hflag]
  simp [ord, OrdTree.compare, OrdTree.compareEach, labelOrd, Ordering.then_assoc]

lemma mtyLT_array {ty ty' : MonoType} (h : Both (normIfOpaquePtr ty) (normIfOpaquePtr ty')) :
    mtyLT (.array ty) (.array ty') = (ord (.array ty) (.array ty') == .lt) := by
  rw [mtyLT, h.1]
  simp [ord, OrdTree.compare, OrdTree.compareEach, labelOrd, asRead_normIfOpaquePtr]

lemma mtyLT_fixedArray {ty ty' len len' : MonoType} (h : Both (normIfOpaquePtr ty) (normIfOpaquePtr ty'))
    (hlen : Both len len') :
    mtyLT (.fixedArray ty len) (.fixedArray ty' len') = (ord (.fixedArray ty len) (.fixedArray ty' len') == .lt) := by
  rw [mtyLT, ite_both h (ite_both_last hlen)]
  simp [ord, OrdTree.compare, OrdTree.compareEach, labelOrd, asRead_normIfOpaquePtr]

lemma mtyLT_func {aty aty' rty rty' : MonoType} (h : Both aty aty') (h' : Both rty rty') :
    mtyLT (.func aty rty) (.func aty' rty') = (ord (.func aty rty) (.func aty' rty') == .lt) := by
  rw [mtyLT, ite_both h (ite_both_last h')]
  simp [ord, OrdTree.compare, OrdTree.compareEach, labelOrd]

lemma mtyLT_existsType {tname tname' : Bytes} {bty bty' : MonoType} (h : Both bty bty') :
    mtyLT (.existsType tname bty) (.existsType tname' bty') =
      (ord (.existsType tname bty) (.existsType tname' bty') == .lt) := by
  rw [mtyLT, ite_ne h.1]
  simp [ord, OrdTree.compare, OrdTree.compareEach, labelOrd]

lemma mtyLT_recursive {tname tname' : Bytes} {bty bty' : MonoType} (h : Both bty bty') :
    mtyLT (.recursive tname bty) (.recursive tname' bty') =
      (ord (.recursive tname bty) (.recursive tname' bty') == .lt) := by
  rw [mtyLT, ite_ne h.1]
  simp [ord, OrdTree.compare, OrdTree.compareEach, labelOrd]

/-! ### Several types -/

lemma typesLT_eq {ls rs : List MonoType} (hlen : ls.length = rs.length) (h : ∀ l ∈ ls, ∀ r ∈ rs, Both l r) :
    typesLT ls rs =
      (OrdTree.compareEach labelOrd (typesKeys (typesAsRead ls)) (typesKeys (typesAsRead rs)) == .lt) := by
  induction ls generalizing rs with
  | nil =>
    rw [List.length_eq_zero_iff.mp hlen.symm, typesLT]
    · rfl
    · simp
  | cons l ls ih =>
    cases rs with
    | nil => cases hlen
    | cons r rs =>
      obtain ⟨hl, hls⟩ := List.forall_mem_cons.mp h
      have hrest := ih (Nat.succ.inj hlen) fun l hl r hr => hls l hl r (List.mem_cons_of_mem _ hr)
      rw [typesLT, ite_both (hl r List.mem_cons_self) hrest]
      rfl

lemma variantLT_eq {ls rs : List (Variant.Member MonoType)} (hlen : ls.length = rs.length)
    (h : ∀ l ∈ ls, ∀ r ∈ rs, Both l.type r.type) : variantLT ls rs =
      (OrdTree.compareEach labelOrd (variantKeys (variantAsRead ls)) (variantKeys (variantAsRead rs)) == .lt) := by
  induction ls generalizing rs with
  | nil =>
    rw [List.length_eq_zero_iff.mp hlen.symm, variantLT]
    · rfl
    · simp
  | cons l ls ih =>
    cases rs with
    | nil => cases hlen
    | cons r rs =>
      obtain ⟨hl, hls⟩ := List.forall_mem_cons.mp h
      have hrest := ih (Nat.succ.inj hlen) fun l hl r hr => hls l hl r (List.mem_cons_of_mem _ hr)
      obtain ⟨selector, type, id⟩ := l
      obtain ⟨selector', type', id'⟩ := r
      have hid : ∀ {o : Ordering} {x : Bool}, x = (o == .lt) → (if id ≠ id' then less id.toNat id'.toNat else x) =
          ((compare id.toNat id'.toNat).then o == .lt) := fun {o x} hx => by
        rw [← ite_ne hx]
        simp [BitVec.toNat_eq]
      rw [variantLT, ite_ne (hid (ite_both (hl _ List.mem_cons_self) hrest))]
      simp [ord, variantAsRead, variantKeys, OrdTree.compare, OrdTree.compareEach, labelOrd, Ordering.then_assoc,
        compare_natCast]

lemma recordLT_eq {ls rs : List (Record.Member MonoType)} (hlen : ls.length = rs.length)
    (h : ∀ l ∈ ls, ∀ r ∈ rs, Both l.type r.type) : recordLT ls rs =
      (OrdTree.compareEach labelOrd (recordKeys (recordAsRead ls)) (recordKeys (recordAsRead rs)) == .lt) := by
  induction ls generalizing rs with
  | nil =>
    rw [List.length_eq_zero_iff.mp hlen.symm, recordLT]
    · rfl
    · simp
  | cons l ls ih =>
    cases rs with
    | nil => cases hlen
    | cons r rs =>
      obtain ⟨hl, hls⟩ := List.forall_mem_cons.mp h
      have hrest := ih (Nat.succ.inj hlen) fun l hl r hr => hls l hl r (List.mem_cons_of_mem _ hr)
      obtain ⟨field, type, offset⟩ := l
      obtain ⟨field', type', offset'⟩ := r
      have hoffset : ∀ {o : Ordering} {x : Bool}, x = (o == .lt) →
          (if offset ≠ offset' then less offset.toInt offset'.toInt else x) =
            ((compare offset.toInt offset'.toInt).then o == .lt) := fun {o x} hx => by
        rw [← ite_ne hx]
        simp [BitVec.toInt_inj]
      rw [recordLT, ite_ne (hoffset (ite_both (hl _ List.mem_cons_self) hrest))]
      simp [ord, recordAsRead, recordKeys, OrdTree.compare, OrdTree.compareEach, labelOrd, Ordering.then_assoc]

lemma mtyLT_tapp {f f' : MonoType} {largs rargs : List MonoType} (h : Both f f')
    (h' : ∀ l ∈ largs, ∀ r ∈ rargs, Both l r) :
    mtyLT (.tapp f largs) (.tapp f' rargs) = (ord (.tapp f largs) (.tapp f' rargs) == .lt) := by
  rw [mtyLT, ite_both h (ite_length fun hlen => typesLT_eq hlen h')]
  simp [ord, OrdTree.compare, OrdTree.compareEach, labelOrd, typesKeys_eq, typesAsRead_eq]

lemma mtyLT_variant {ls rs : List (Variant.Member MonoType)} (h : ∀ l ∈ ls, ∀ r ∈ rs, Both l.type r.type) :
    mtyLT (.variant ls) (.variant rs) = (ord (.variant ls) (.variant rs) == .lt) := by
  rw [mtyLT, ite_length_ne fun hlen => variantLT_eq hlen h]
  simp [ord, OrdTree.compare, labelOrd, variantKeys_eq, variantAsRead_eq]

lemma mtyLT_record {ls rs : List (Record.Member MonoType)} (h : ∀ l ∈ ls, ∀ r ∈ rs, Both l.type r.type) :
    mtyLT (.record ls) (.record rs) = (ord (.record ls) (.record rs) == .lt) := by
  rw [mtyLT, ite_length_ne fun hlen => recordLT_eq hlen h]
  simp [ord, OrdTree.compare, labelOrd, recordKeys_eq, recordAsRead_eq]

/-! ### All types -/

lemma both_opaquePtr (nm : Bytes) (sz : BitVec 32) (scontig : Bool) (r : MonoType) :
    Both (.opaquePtr nm sz scontig) r := by
  refine both_of_mtyLT fun h => ?_
  cases r <;> simp [caseId] at h
  exact ⟨mtyLT_opaquePtr .., mtyLT_opaquePtr ..⟩

/-- An element type is a part of the array, or it is an opaque pointer. -/
lemma both_normIfOpaquePtr {ty : MonoType} (h : ∀ r, Both ty r) (r : MonoType) : Both (normIfOpaquePtr ty) r := by
  cases ty with
  | opaquePtr nm sz scontig => exact both_opaquePtr ..
  | _ => exact h r

/-- `MonoTypeLT` compares what there is to read of the types. -/
lemma both (l r : MonoType) : Both l r := by
  induction l generalizing r with
  | prim nm t =>
    refine both_of_mtyLT fun h => ?_
    cases r <;> simp [caseId] at h
    simp [mtyLT, less, ord, OrdTree.compare, OrdTree.compareEach, labelOrd]
  | opaquePtr nm sz scontig => exact both_opaquePtr ..
  | tvar nm =>
    refine both_of_mtyLT fun h => ?_
    cases r <;> simp [caseId] at h
    simp [mtyLT, less, ord, OrdTree.compare, OrdTree.compareEach, labelOrd]
  | tgen x =>
    refine both_of_mtyLT fun h => ?_
    cases r <;> simp [caseId] at h
    simp [mtyLT, less, ord, OrdTree.compare, OrdTree.compareEach, labelOrd]
  | tabs targns b ih =>
    refine both_of_mtyLT fun h => ?_
    cases r <;> simp [caseId] at h
    exact ⟨mtyLT_tabs (ih _), mtyLT_tabs (ih _).symm⟩
  | tapp f targs ih ihs =>
    refine both_of_mtyLT fun h => ?_
    cases r <;> simp [caseId] at h
    exact ⟨mtyLT_tapp (ih _) fun l hl r _ => ihs l hl r, mtyLT_tapp (ih _).symm fun r _ l hl => (ihs l hl r).symm⟩
  | fixedArray ty len ih ihlen =>
    refine both_of_mtyLT fun h => ?_
    cases r <;> simp [caseId] at h
    exact ⟨mtyLT_fixedArray (both_normIfOpaquePtr ih _) (ihlen _),
      mtyLT_fixedArray (both_normIfOpaquePtr ih _).symm (ihlen _).symm⟩
  | array ty ih =>
    refine both_of_mtyLT fun h => ?_
    cases r <;> simp [caseId] at h
    exact ⟨mtyLT_array (both_normIfOpaquePtr ih _), mtyLT_array (both_normIfOpaquePtr ih _).symm⟩
  | variant ms ih =>
    refine both_of_mtyLT fun h => ?_
    cases r <;> simp [caseId] at h
    exact ⟨mtyLT_variant fun l hl r _ => ih l hl r.type, mtyLT_variant fun r _ l hl => (ih l hl r.type).symm⟩
  | record ms ih =>
    refine both_of_mtyLT fun h => ?_
    cases r <;> simp [caseId] at h
    exact ⟨mtyLT_record fun l hl r _ => ih l hl r.type, mtyLT_record fun r _ l hl => (ih l hl r.type).symm⟩
  | func aty rty ih ih' =>
    refine both_of_mtyLT fun h => ?_
    cases r <;> simp [caseId] at h
    exact ⟨mtyLT_func (ih _) (ih' _), mtyLT_func (ih _).symm (ih' _).symm⟩
  | existsType tname bty ih =>
    refine both_of_mtyLT fun h => ?_
    cases r <;> simp [caseId] at h
    exact ⟨mtyLT_existsType (ih _), mtyLT_existsType (ih _).symm⟩
  | recursive tname bty ih =>
    refine both_of_mtyLT fun h => ?_
    cases r <;> simp [caseId] at h
    exact ⟨mtyLT_recursive (ih _), mtyLT_recursive (ih _).symm⟩
  | tstring val =>
    refine both_of_mtyLT fun h => ?_
    cases r <;> simp [caseId] at h
    simp [mtyLT, less, ord, OrdTree.compare, OrdTree.compareEach, labelOrd]
  | tlong x =>
    refine both_of_mtyLT fun h => ?_
    cases r <;> simp [caseId] at h
    simp [mtyLT, less, ord, OrdTree.compare, OrdTree.compareEach, labelOrd]

lemma lt_iff {l r : MonoType} : lt l r = true ↔ ord l r = .lt := by rw [(both l r).1, beq_iff_eq]

end

/-! ### Which types are told apart -/

/-- A primitive has the representation of its name, and only a pointer that is stored contiguously has a size. -/
def Determined (rep : Bytes → Option MonoType) : MonoType → Prop
  | .prim nm t => t = rep nm
  | .opaquePtr _ sz scontig => scontig = false → sz = 0
  | _ => True

section

variable {rep : Bytes → Option MonoType}

lemma typesKeys_inj {ss ts : List MonoType} (h : ∀ s ∈ ss, ∀ t ∈ ts, s.key = t.key → s = t)
    (heq : typesKeys ss = typesKeys ts) : ss = ts := by
  induction ss generalizing ts with
  | nil =>
    cases ts with
    | nil => rfl
    | cons t ts => cases heq
  | cons s ss ih =>
    cases ts with
    | nil => cases heq
    | cons t ts =>
      obtain ⟨hs, hss⟩ := List.forall_mem_cons.mp h
      obtain ⟨hst, hrest⟩ := List.cons.inj heq
      rw [hs t List.mem_cons_self hst, ih (fun s hs t ht => hss s hs t (List.mem_cons_of_mem _ ht)) hrest]

lemma variantKeys_inj {ls rs : List (Variant.Member MonoType)}
    (h : ∀ l ∈ ls, ∀ r ∈ rs, l.type.key = r.type.key → l.type = r.type) (heq : variantKeys ls = variantKeys rs) :
    ls = rs := by
  induction ls generalizing rs with
  | nil =>
    cases rs with
    | nil => rfl
    | cons r rs => cases heq
  | cons l ls ih =>
    cases rs with
    | nil => cases heq
    | cons r rs =>
      obtain ⟨hl, hls⟩ := List.forall_mem_cons.mp h
      obtain ⟨selector, type, id⟩ := l
      obtain ⟨selector', type', id'⟩ := r
      obtain ⟨hlr, hrest⟩ := List.cons.inj heq
      simp only [OrdTree.node.injEq, Prod.mk.injEq, List.cons.injEq, and_true, true_and, Int.ofNat_inj] at hlr
      obtain ⟨⟨rfl, hid⟩, hkey⟩ := hlr
      obtain rfl : type = type' := hl _ List.mem_cons_self hkey
      rw [BitVec.eq_of_toNat_eq hid, ih (fun l hl r hr => hls l hl r (List.mem_cons_of_mem _ hr)) hrest]

lemma recordKeys_inj {ls rs : List (Record.Member MonoType)}
    (h : ∀ l ∈ ls, ∀ r ∈ rs, l.type.key = r.type.key → l.type = r.type) (heq : recordKeys ls = recordKeys rs) :
    ls = rs := by
  induction ls generalizing rs with
  | nil =>
    cases rs with
    | nil => rfl
    | cons r rs => cases heq
  | cons l ls ih =>
    cases rs with
    | nil => cases heq
    | cons r rs =>
      obtain ⟨hl, hls⟩ := List.forall_mem_cons.mp h
      obtain ⟨field, type, offset⟩ := l
      obtain ⟨field', type', offset'⟩ := r
      obtain ⟨hlr, hrest⟩ := List.cons.inj heq
      simp only [OrdTree.node.injEq, Prod.mk.injEq, List.cons.injEq, and_true, true_and] at hlr
      obtain ⟨⟨rfl, hoffset⟩, hkey⟩ := hlr
      obtain rfl : type = type' := hl _ List.mem_cons_self hkey
      rw [BitVec.eq_of_toInt_eq hoffset, ih (fun l hl r hr => hls l hl r (List.mem_cons_of_mem _ hr)) hrest]

lemma Forall.self {p : MonoType → Prop} {t : MonoType} (h : t.Forall p) : p t := by
  cases t with
  | prim nm r =>
    cases r with
    | none => exact h
    | some r => exact h.1
  | opaquePtr | tvar | tgen | tstring | tlong => exact h
  | _ => exact h.1

lemma key_inj {s t : MonoType} (hs : s.Forall (Determined rep)) (ht : t.Forall (Determined rep))
    (h : s.key = t.key) : s = t := by
  induction s generalizing t with
  | prim nm r =>
    cases t <;> simp at h
    rw [hs.self, ht.self, h]
  | opaquePtr nm sz scontig =>
    cases t <;> simp at h
    rename_i nm' sz' scontig'
    obtain ⟨⟨rfl, hflag⟩, hsize⟩ := h
    cases scontig <;> cases scontig'
    · rw [hs.self rfl, ht.self rfl]
    · cases hflag
    · cases hflag
    · rw [BitVec.eq_of_toNat_eq (Int.ofNat_inj.mp hsize)]
  | tvar nm =>
    cases t <;> simp at h
    rw [h]
  | tgen x =>
    cases t <;> simp at h
    rw [BitVec.eq_of_toInt_eq h]
  | tabs targns b ih =>
    cases t <;> simp at h
    rw [h.1, ih hs.2 ht.2 h.2]
  | tapp f targs ih ihs =>
    cases t <;> simp at h
    rw [ih hs.2.1 ht.2.1 h.1, typesKeys_inj (fun s hs' t ht' => ihs s hs' (forallTypes_iff.mp hs.2.2 s hs')
      (forallTypes_iff.mp ht.2.2 t ht')) h.2]
  | fixedArray ty len ih ihlen =>
    cases t <;> simp at h
    rw [ih hs.2.1 ht.2.1 h.1, ihlen hs.2.2 ht.2.2 h.2]
  | array ty ih =>
    cases t <;> simp at h
    rw [ih hs.2 ht.2 h]
  | variant ms ih =>
    cases t <;> simp at h
    rw [variantKeys_inj (fun l hl r hr => ih l hl (forallVariant_iff.mp hs.2 l hl) (forallVariant_iff.mp ht.2 r hr)) h]
  | record ms ih =>
    cases t <;> simp at h
    rw [recordKeys_inj (fun l hl r hr => ih l hl (forallRecord_iff.mp hs.2 l hl) (forallRecord_iff.mp ht.2 r hr)) h]
  | func aty rty ih ih' =>
    cases t <;> simp at h
    rw [ih hs.2.1 ht.2.1 h.1, ih' hs.2.2 ht.2.2 h.2]
  | existsType tname bty ih =>
    cases t <;> simp at h
    rw [h.1, ih hs.2 ht.2 h.2]
  | recursive tname bty ih =>
    cases t <;> simp at h
    rw [h.1, ih hs.2 ht.2 h.2]
  | tstring val =>
    cases t <;> simp at h
    rw [h]
  | tlong x =>
    cases t <;> simp at h
    rw [BitVec.eq_of_toInt_eq h]

lemma determined_normIfOpaquePtr {t : MonoType} (h : t.Forall (Determined rep)) :
    (normIfOpaquePtr t).Forall (Determined rep) := by
  cases t with
  | opaquePtr nm sz scontig => exact fun _ => rfl
  | _ => exact h

lemma determined_asRead {t : MonoType} (h : t.Forall (Determined rep)) : t.asRead.Forall (Determined rep) := by
  induction t with
  | prim nm r => exact h
  | opaquePtr nm sz scontig => exact h
  | tvar nm => exact h
  | tgen x => exact h
  | tabs targns b ih => exact ⟨trivial, ih h.2⟩
  | tapp f targs ih ihs =>
    refine ⟨trivial, ih h.2.1, forallTypes_iff.mpr fun u hu => ?_⟩
    rw [typesAsRead_eq] at hu
    obtain ⟨t, ht, rfl⟩ := List.mem_map.mp hu
    exact ihs t ht (forallTypes_iff.mp h.2.2 t ht)
  | fixedArray ty len ih ihlen => exact ⟨trivial, determined_normIfOpaquePtr (ih h.2.1), ihlen h.2.2⟩
  | array ty ih => exact ⟨trivial, determined_normIfOpaquePtr (ih h.2)⟩
  | variant ms ih =>
    refine ⟨trivial, forallVariant_iff.mpr fun u hu => ?_⟩
    rw [variantAsRead_eq] at hu
    obtain ⟨m, hm, rfl⟩ := List.mem_map.mp hu
    exact ih m hm (forallVariant_iff.mp h.2 m hm)
  | record ms ih =>
    refine ⟨trivial, forallRecord_iff.mpr fun u hu => ?_⟩
    rw [recordAsRead_eq] at hu
    obtain ⟨m, hm, rfl⟩ := List.mem_map.mp hu
    exact ih m hm (forallRecord_iff.mp h.2 m hm)
  | func aty rty ih ih' => exact ⟨trivial, ih h.2.1, ih' h.2.2⟩
  | existsType tname bty ih => exact ⟨trivial, ih h.2⟩
  | recursive tname bty ih => exact ⟨trivial, ih h.2⟩
  | tstring val => exact h
  | tlong x => exact h

/-- The primitive names stand for these representations. -/
def Represented (rep : Bytes → Option MonoType) : MonoType → Prop
  | .prim nm t => t = rep nm
  | _ => True

lemma determined_of_made {L : Layout} {t : MonoType} (h : t.Made L) (hrep : t.Forall (Represented rep)) :
    t.Forall (Determined rep) := by
  induction h with
  | @prim nm r h ih =>
    cases r with
    | none => exact hrep
    | some r => exact ⟨hrep.1, ih r rfl hrep.2⟩
  | opaquePtr nm sz scontig =>
    rintro rfl
    rfl
  | tvar | tgen | tstring | tlong => exact trivial
  | tabs h ih => exact ⟨trivial, ih hrep.2⟩
  | tapp hf h ihf ih =>
    exact ⟨trivial, ihf hrep.2.1, forallTypes_iff.mpr fun t ht => ih t ht (forallTypes_iff.mp hrep.2.2 t ht)⟩
  | fixedArray hty hlen ih ihlen => exact ⟨trivial, ih hrep.2.1, ihlen hrep.2.2⟩
  | array h ih => exact ⟨trivial, ih hrep.2⟩
  | variant h ih => exact ⟨trivial, forallVariant_iff.mpr fun m hm => ih m hm (forallVariant_iff.mp hrep.2 m hm)⟩
  | @record ms t h ht ih =>
    obtain ⟨ms', rfl, -, htypes⟩ := Record.make_eq_some ht
    refine ⟨trivial, forallRecord_iff.mpr fun m hm => ?_⟩
    obtain ⟨m', hm', htype⟩ := List.mem_map.mp (htypes ▸ List.mem_map_of_mem hm)
    exact htype ▸ ih m' hm' (htype ▸ forallRecord_iff.mp hrep.2 m hm)
  | func haty hrty ih ih' => exact ⟨trivial, ih hrep.2.1, ih' hrep.2.2⟩
  | existsType h ih => exact ⟨trivial, ih hrep.2⟩
  | recursive h ih => exact ⟨trivial, ih hrep.2⟩

/-- No comparison says that one type is less exactly if both are read as the same type. -/
lemma ord_eq_iff {L : Layout} {l r : MonoType} (hl : l.Made L) (hr : r.Made L) (hlrep : l.Forall (Represented rep))
    (hrrep : r.Forall (Represented rep)) : ord l r = .eq ↔ l.asRead = r.asRead := by
  refine ⟨fun h => ?_, fun h => by rw [ord, h]; exact OrdTree.compare_self _⟩
  exact key_inj (determined_asRead (determined_of_made hl hlrep)) (determined_asRead (determined_of_made hr hrrep))
    (OrdTree.eq_of_compare h)

end

/-! ### A strict total order -/

section

variable [DecidableEq MonoType]

lemma lt_irrefl (t : MonoType) : lt t t = false := by rw [lt, if_pos rfl]

lemma lt_trans {l m r : MonoType} (h : lt l m = true) (h' : lt m r = true) : lt l r = true :=
  lt_iff.mpr ((OrdTree.fits_compare _ _ _).lt (lt_iff.mp h) (lt_iff.mp h'))

/-- Exactly one of the three holds. -/
def Trichotomous (l r : MonoType) : Prop :=
  lt l r = true ∧ lt r l = false ∧ l ≠ r ∨ lt l r = false ∧ lt r l = true ∧ l ≠ r ∨
    lt l r = false ∧ lt r l = false ∧ l = r

/-- Of two types that differ as they are read, one is less. -/
theorem strictTotal_iff (L : Layout) (rep : Bytes → Option MonoType) {l r : MonoType} (hl : l.Made L) (hr : r.Made L)
    (hlrep : l.Forall (Represented rep)) (hrrep : r.Forall (Represented rep)) :
    (lt l l = false ∧ (∀ m, lt l m = true → lt m r = true → lt l r = true) ∧ Trichotomous l r) ↔
      (l.asRead = r.asRead → l = r) := by
  have hne : ∀ {o : Ordering}, ord l r = o → o ≠ .eq → l ≠ r := by
    rintro o hord ho rfl
    exact ho (hord ▸ ord_self l)
  have heq := ord_eq_iff hl hr hlrep hrrep
  refine (and_iff_right (lt_irrefl l)).trans ((and_iff_right fun m => lt_trans).trans ?_)
  rw [Trichotomous, (both l r).1, (both l r).2, ord_swap r l, ← heq]
  cases hord : ord l r with
  | lt => simp [hne hord]
  | gt => simp [hne hord]
  | eq => simp

end

open Classical in
theorem strictTotal_var : Trichotomous (.array (.tvar [97])) (.array (.tvar [98])) :=
  ((strictTotal_iff ⟨fun _ => none, fun _ => none⟩ (fun _ => none) (.array (.tvar [97])) (.array (.tvar [98]))
    ⟨trivial, trivial⟩ ⟨trivial, trivial⟩).mpr (by simp [asRead, normIfOpaquePtr])).2.2

/-- The array of a pointer that is stored contiguously, and that of the plain one. -/
theorem not_strictTotal : ¬ ∀ (_ : DecidableEq MonoType) (L : Layout) (rep : Bytes → Option MonoType) (l r : MonoType),
    l.Made L → r.Made L → l.Forall (Represented rep) → r.Forall (Represented rep) → Trichotomous l r := by
  intro h
  let l : MonoType := .array (OpaquePtr.make [88] 8 true)
  let r : MonoType := .array (OpaquePtr.make [88] 8 false)
  have hdec : DecidableEq MonoType := Classical.decEq MonoType
  have hlr := h hdec ⟨fun _ => none, fun _ => none⟩ (fun _ => none) l r (.array (.opaquePtr ..))
    (.array (.opaquePtr ..))
    ⟨trivial, trivial⟩ ⟨trivial, trivial⟩
  have hord : ord l r = .eq := ord_self r
  rw [Trichotomous, (both l r).1, (both l r).2, ord_swap r l, hord] at hlr
  simp [l, r, OpaquePtr.make] at hlr

end MonoType

end Hobbes.Lang
