import Hobbes.Lang.Ord

/-!
# The laws of comparisons

`<` is a strict total order for every type, and `===` its equality. The other operators agree with it
except for the variants whose constructors behind the first one have values.
-/

namespace Hobbes.Lang

namespace Ops

variable {α β : Type} {o : Ops α} {h : Ops α} {t : Ops β}

/-- `<` is a strict total order whose equality is `===`. -/
structure Ordered (o : Ops α) : Prop where
  total : IsStrictTotalOrder α fun x y => o.lt x y
  eq_iff : ∀ x y, o.eq x y ↔ x = y

/-- The other operators are what `<` says that they are. -/
structure Agree (o : Ops α) : Prop where
  le : ∀ x y, o.le x y = !o.lt y x
  gt : ∀ x y, o.gt x y = o.lt y x
  ge : ∀ x y, o.ge x y = !o.lt x y

namespace Ordered

/-- The comparisons are those of a relation that is a strict total order. -/
lemma of_rel {r : α → α → Prop} (hr : IsStrictTotalOrder α r) (hlt : ∀ x y, o.lt x y ↔ r x y)
    (heq : ∀ x y, o.eq x y ↔ x = y) : Ordered o := by
  have hrel : (fun x y => o.lt x y = true) = r := funext₂ fun x y => propext (hlt x y)
  exact ⟨hrel ▸ hr, heq⟩

lemma irrefl (ho : Ordered o) (x : α) : o.lt x x = false :=
  Bool.eq_false_iff.mpr (ho.total.irrefl x)

lemma trichotomous (ho : Ordered o) {x y : α} (hxy : o.lt x y = false) (hyx : o.lt y x = false) :
    x = y :=
  have := ho.total
  Std.Trichotomous.trichotomous (r := fun x y => o.lt x y = true) x y (by simp [hxy]) (by simp [hyx])

lemma asymm (ho : Ordered o) {x y : α} (hxy : o.lt x y = true) : o.lt y x = false := by
  have := ho.total
  exact Bool.eq_false_iff.mpr fun hyx => ho.total.irrefl x (ho.total.trans x y x hxy hyx)

/-- The negation of `<` is what is equal or the other way round. -/
lemma not_lt_eq (ho : Ordered o) (x y : α) : (!o.lt y x) = (o.eq x y || o.lt x y) := by
  cases hyx : o.lt y x with
  | true =>
    have hne : x ≠ y := by rintro rfl; rw [ho.irrefl] at hyx; cases hyx
    simp [ho.asymm hyx, Bool.eq_false_iff.mpr (mt (ho.eq_iff x y).mp hne)]
  | false =>
    cases hxy : o.lt x y with
    | true => simp
    | false => simp [(ho.eq_iff x y).mpr (ho.trichotomous hxy hyx)]

end Ordered

/-! ### Primitive types -/

/-- The comparisons are those of numbers. -/
lemma Ordered.of_int {f : α → ℤ} (hf : Function.Injective f) (hlt : ∀ x y, o.lt x y ↔ f x < f y)
    (heq : ∀ x y, o.eq x y ↔ x = y) : Ordered o :=
  .of_rel (r := InvImage (· < ·) f)
    { irrefl x := lt_irrefl (f x)
      trans _ _ _ h h' := lt_trans h h'
      trichotomous _ _ h h' := hf (le_antisymm (not_lt.mp h') (not_lt.mp h)) } hlt heq

lemma ordered_unit : Ordered unit :=
  .of_int (f := fun _ => 0) (fun _ _ _ => rfl) (by simp [unit]) (by simp [unit])

lemma ordered_void : Ordered void :=
  .of_int (f := fun _ => 0) (fun x => x.elim) (fun x => x.elim) fun x => x.elim

lemma ordered_bool : Ordered bool :=
  .of_int (f := fun b => if b then 1 else 0) (fun x y => by cases x <;> cases y <;> decide)
    (by decide) (by decide)

lemma ordered_unsigned (w : ℕ) : Ordered (unsigned w) :=
  .of_int (f := fun x => x.toNat) (fun x y h => BitVec.eq_of_toNat_eq (Int.ofNat_inj.mp h))
    (fun x y => by simp [unsigned, BitVec.ult]) fun x y => by simp [unsigned]

lemma ordered_signed (w : ℕ) : Ordered (signed w) :=
  .of_int (f := BitVec.toInt) (fun x y h => BitVec.eq_of_toInt_eq h)
    (fun x y => by simp [signed, BitVec.slt]) fun x y => by simp [signed]

lemma agree_unit : Agree unit := ⟨fun _ _ => rfl, fun _ _ => rfl, fun _ _ => rfl⟩

lemma agree_void : Agree void := ⟨fun x => x.elim, fun x => x.elim, fun x => x.elim⟩

lemma agree_bool : Agree bool := ⟨by decide, by decide, by decide⟩

lemma agree_unsigned (w : ℕ) : Agree (unsigned w) :=
  ⟨BitVec.ule_eq_not_ult, fun _ _ => rfl, fun x y => BitVec.ule_eq_not_ult y x⟩

lemma agree_signed (w : ℕ) : Agree (signed w) :=
  ⟨fun _ _ => BitVec.sle_eq_not_slt, fun _ _ => rfl, fun _ _ => BitVec.sle_eq_not_slt⟩

/-! ### Arrays -/

lemma arrCmp_of_lt {d : Bool} {xs ys : List α} {i e : ℕ} (hi : i ≠ e) (hx : i < xs.length)
    (hy : i < ys.length) : o.arrCmp d xs ys i e =
      if o.lt xs[i] ys[i] then true else if o.lt ys[i] xs[i] then false
      else o.arrCmp d xs ys (i + 1) e := by
  rw [arrCmp, if_neg hi]
  split
  next x y hx' hy' =>
    obtain ⟨-, rfl⟩ := List.getElem?_eq_some_iff.mp hx'
    obtain ⟨-, rfl⟩ := List.getElem?_eq_some_iff.mp hy'
    rfl
  next h => exact (h _ _ (List.getElem?_eq_getElem hx) (List.getElem?_eq_getElem hy)).elim

/-- A step of a lexicographic comparison. -/
lemma Ordered.lex_cons (ho : Ordered o) {d : Bool} {x y : α} {xs ys : List α} {b : Bool}
    (h : b ↔ List.Lex (fun x y => o.lt x y) xs ys ∨ d ∧ xs = ys) :
    (if o.lt x y then true else if o.lt y x then false else b) ↔
      List.Lex (fun x y => o.lt x y) (x :: xs) (y :: ys) ∨ d ∧ x :: xs = y :: ys := by
  have := ho.total
  cases hlt : o.lt x y with
  | true => exact iff_of_true rfl (.inl (.rel hlt))
  | false =>
    cases hgt : o.lt y x with
    | true =>
      have hne : x ≠ y := by
        rintro rfl
        rw [ho.irrefl] at hgt
        cases hgt
      refine iff_of_false Bool.false_ne_true ?_
      rintro (hlex | ⟨-, heq⟩)
      · cases hlex with
        | rel hxy => rw [hlt] at hxy; cases hxy
        | cons => exact hne rfl
      · exact hne (List.cons.inj heq).1
    | false =>
      obtain rfl := ho.trichotomous hlt hgt
      rw [List.lex_cons_iff, List.cons_inj_right]
      exact h

/-- `arrCmp` from `i` on compares what is left lexicographically. -/
lemma Ordered.arrCmp_iff (ho : Ordered o) (d : Bool) (xs ys : List α) (k : ℕ) :
    ∀ i, i + k = min xs.length ys.length →
      (o.arrCmp d xs ys i (min xs.length ys.length) ↔
        List.Lex (fun x y => o.lt x y) (xs.drop i) (ys.drop i) ∨ d ∧ xs.drop i = ys.drop i) := by
  induction k with
  | zero =>
    intro i hi
    rw [arrCmp, if_pos (by omega)]
    rcases Nat.lt_trichotomy xs.length ys.length with hlt | heq | hlt
    · have hx : xs.drop i = [] := List.drop_of_length_le (by omega)
      rw [hx, List.drop_eq_getElem_cons (show i < ys.length by omega)]
      exact iff_of_true (by simp [hlt]) (.inl .nil)
    · have hx : xs.drop i = [] := List.drop_of_length_le (by omega)
      have hy : ys.drop i = [] := List.drop_of_length_le (by omega)
      rw [hx, hy]
      simp [heq]
    · have hy : ys.drop i = [] := List.drop_of_length_le (by omega)
      rw [hy, List.drop_eq_getElem_cons (show i < xs.length by omega)]
      refine iff_of_false ?_ ?_
      · have hne : xs.length ≠ ys.length := by omega
        simp [hne, Nat.le_of_lt hlt]
      · rintro (h | ⟨-, h⟩) <;> cases h
  | succ k ih =>
    intro i hi
    have hx : i < xs.length := by omega
    have hy : i < ys.length := by omega
    rw [arrCmp_of_lt (by omega) hx hy, List.drop_eq_getElem_cons hx, List.drop_eq_getElem_cons hy]
    exact ho.lex_cons (ih (i + 1) (by omega))

lemma Ordered.arrCmp_zero (ho : Ordered o) (d : Bool) (xs ys : List α) :
    o.arrCmp d xs ys 0 (min xs.length ys.length) ↔
      List.Lex (fun x y => o.lt x y) xs ys ∨ d ∧ xs = ys :=
  ho.arrCmp_iff d xs ys _ 0 (Nat.zero_add _)

lemma Ordered.eqLenEqArrs_iff (ho : Ordered o) {xs ys : List α} (hlen : xs.length = ys.length)
    (k : ℕ) : ∀ i, i + k = xs.length → (o.eqLenEqArrs xs ys i ↔ xs.drop i = ys.drop i) := by
  induction k with
  | zero =>
    intro i hi
    rw [eqLenEqArrs, if_pos (by omega), List.drop_of_length_le (by omega),
      List.drop_of_length_le (by omega)]
    simp
  | succ k ih =>
    intro i hi
    have hx : i < xs.length := by omega
    have hy : i < ys.length := by omega
    rw [eqLenEqArrs, if_neg (by omega), List.drop_eq_getElem_cons hx, List.drop_eq_getElem_cons hy]
    have ih := ih (i + 1) (by omega)
    split
    next x y hx' hy' =>
      obtain ⟨-, rfl⟩ := List.getElem?_eq_some_iff.mp hx'
      obtain ⟨-, rfl⟩ := List.getElem?_eq_some_iff.mp hy'
      rw [List.cons.injEq, ← ho.eq_iff, ← ih]
      simp
    next h => exact (h _ _ (List.getElem?_eq_getElem hx) (List.getElem?_eq_getElem hy)).elim

lemma Ordered.array (ho : Ordered o) : Ordered o.array := by
  have := ho.total
  have hlex : IsStrictTotalOrder (List α) (List.Lex fun x y => o.lt x y) :=
    { toTrichotomous := inferInstance
      toIsStrictOrder := isStrictWeakOrder_of_isOrderConnected.toIsStrictOrder }
  refine .of_rel hlex (fun xs ys => ?_) fun xs ys => ?_
  · simpa [Ops.array] using ho.arrCmp_zero false xs ys
  · simp only [Ops.array, Bool.and_eq_true, beq_iff_eq]
    constructor
    · rintro ⟨hlen, heq⟩
      simpa using (ho.eqLenEqArrs_iff hlen _ 0 (Nat.zero_add _)).mp heq
    · rintro rfl
      exact ⟨rfl, (ho.eqLenEqArrs_iff rfl _ 0 (Nat.zero_add _)).mpr rfl⟩

/-- Whatever the elements are, the operators of arrays agree. -/
lemma Ordered.agree_array (ho : Ordered o) : Agree o.array := by
  have hle (xs ys : List α) : o.array.le xs ys = !o.array.lt ys xs := by
    rw [ho.array.not_lt_eq, Bool.eq_iff_iff, Bool.or_eq_true, ho.array.eq_iff]
    simp only [Ops.array, ho.arrCmp_zero]
    simp [or_comm]
  exact ⟨hle, fun _ _ => rfl, fun xs ys => hle ys xs⟩

/-! ### Records -/

lemma Ordered.record (hh : Ordered h) (ht : Ordered t) : Ordered (h.record t) := by
  have := hh.total
  have := ht.total
  have hlex : IsStrictTotalOrder (α × β)
      (Prod.Lex (fun x y => h.lt x y) fun x y => t.lt x y) :=
    { trichotomous := by
        rintro ⟨x, x'⟩ ⟨y, y'⟩ hxy hyx
        simp only [Prod.lex_def, not_or, not_and, Bool.not_eq_true] at hxy hyx
        obtain rfl := hh.trichotomous hxy.1 hyx.1
        rw [ht.trichotomous (hxy.2 rfl) (hyx.2 rfl)] }
  refine .of_rel hlex (fun x y => ?_) fun x y => ?_
  · rw [Prod.lex_def]
    simp only [Ops.record]
    split
    next heq =>
      rw [hh.eq_iff] at heq
      simp [heq, hh.irrefl]
    next hne =>
      rw [hh.eq_iff] at hne
      simp [hne]
  · simp only [Ops.record, Bool.and_eq_true, hh.eq_iff, ht.eq_iff]
    exact Prod.ext_iff.symm

/-- Only the operators of the other fields are used. -/
lemma Agree.record (hh : Ordered h) (ht : Agree t) : Agree (h.record t) := by
  have heq (x y : α) : h.eq x y = h.eq y x := by
    rw [Bool.eq_iff_iff, hh.eq_iff, hh.eq_iff, eq_comm]
  have hle (x y : α × β) : (h.record t).le x y = !(h.record t).lt y x := by
    simp only [Ops.record, heq y.1 x.1]
    split
    next => exact ht.le x.2 y.2
    next hne =>
      rw [hh.not_lt_eq, Bool.eq_false_iff.mpr hne, Bool.false_or]
  exact ⟨hle, fun _ _ => rfl, fun x y => hle y x⟩

/-! ### Variants and sums -/

lemma Ordered.sumLex (hh : Ordered h) (ht : Ordered t) :
    IsStrictTotalOrder (α ⊕ β) (Sum.Lex (fun x y => h.lt x y) fun x y => t.lt x y) :=
  have := hh.total
  have := ht.total
  { }

lemma Ordered.variant {index : α ⊕ β → ℕ} (hh : Ordered h) (ht : Ordered t)
    (hindex : ∀ x y, index (.inl x) < index (.inr y)) : Ordered (h.variant t index) := by
  refine .of_rel (hh.sumLex ht) ?_ ?_
  · rintro (x | x) (y | y)
    · simp [Ops.variant]
    · simp [Ops.variant, hindex]
    · simp [Ops.variant, Nat.le_of_lt (hindex y x)]
    · simp [Ops.variant]
  · rintro (x | x) (y | y) <;> simp [Ops.variant, hh.eq_iff, ht.eq_iff]

/-- The constructors behind the first are compared by `<`, which does not agree with `<=` even for
equal values. -/
lemma agree_variant {index : α ⊕ β → ℕ} (ht : Ordered t) :
    Agree (h.variant t index) ↔ Agree h ∧ IsEmpty β := by
  constructor
  · intro hv
    refine ⟨⟨fun x y => hv.le (.inl x) (.inl y), fun x y => hv.gt (.inl x) (.inl y),
      fun x y => hv.ge (.inl x) (.inl y)⟩, ⟨fun b => ?_⟩⟩
    have hle : t.lt b b = !t.lt b b := hv.le (.inr b) (.inr b)
    rw [ht.irrefl] at hle
    cases hle
  · rintro ⟨hh, hempty⟩
    refine ⟨?_, ?_, ?_⟩
    · rintro (x | x) (y | y)
      · exact hh.le x y
      · exact (hempty.false y).elim
      · exact (hempty.false x).elim
      · exact (hempty.false x).elim
    · rintro (x | x) (y | y)
      · exact hh.gt x y
      · exact (hempty.false y).elim
      · exact (hempty.false x).elim
      · exact (hempty.false x).elim
    · rintro (x | x) (y | y)
      · exact hh.ge x y
      · exact (hempty.false y).elim
      · exact (hempty.false x).elim
      · exact (hempty.false x).elim

lemma Ordered.sum {a : Ops α} {b : Ops β} (ha : Ordered a) (hb : Ordered b) : Ordered (a.sum b) := by
  refine .of_rel (ha.sumLex hb) ?_ ?_
  · rintro (x | x) (y | y) <;> simp [Ops.sum]
  · rintro (x | x) (y | y) <;> simp [Ops.sum, ha.eq_iff, hb.eq_iff]

lemma agree_sum {a : Ops α} {b : Ops β} : Agree (a.sum b) ↔ Agree a ∧ Agree b := by
  constructor
  · intro hs
    exact ⟨⟨fun x y => hs.le (.inl x) (.inl y), fun x y => hs.gt (.inl x) (.inl y),
      fun x y => hs.ge (.inl x) (.inl y)⟩, ⟨fun x y => hs.le (.inr x) (.inr y),
      fun x y => hs.gt (.inr x) (.inr y), fun x y => hs.ge (.inr x) (.inr y)⟩⟩
  · rintro ⟨ha, hb⟩
    refine ⟨?_, ?_, ?_⟩
    · rintro (x | x) (y | y)
      exacts [ha.le x y, rfl, rfl, hb.le x y]
    · rintro (x | x) (y | y)
      exacts [ha.gt x y, rfl, rfl, hb.gt x y]
    · rintro (x | x) (y | y)
      exacts [ha.ge x y, rfl, rfl, hb.ge x y]

end Ops

/-! ### All types -/

open Ops

lemma PrimTy.ordered (p : PrimTy) : Ordered p.ops := by
  cases p with
  | unit => exact ordered_unit
  | bool => exact ordered_bool
  | char | byte => exact ordered_unsigned 8
  | short => exact ordered_signed 16
  | int => exact ordered_signed 32
  | long | timespan | time | datetime => exact ordered_signed 64

lemma PrimTy.agree (p : PrimTy) : Agree p.ops := by
  cases p with
  | unit => exact agree_unit
  | bool => exact agree_bool
  | char | byte => exact agree_unsigned 8
  | short => exact agree_signed 16
  | int => exact agree_signed 32
  | long | timespan | time | datetime => exact agree_signed 64

lemma le_variantCtorIndexFrom (cs : List Ty) (v : variantVal cs) (i : ℕ) :
    i ≤ variantCtorIndexFrom cs v i := by
  induction cs generalizing i with
  | nil => exact v.elim
  | cons t cs ih =>
    rcases v with x | y
    · exact Nat.le_refl i
    · exact Nat.le_of_succ_le (ih y (i + 1))

lemma variantCtorIndex_lt (t : Ty) (cs : List Ty) (x : t.Val) (y : variantVal cs) :
    variantCtorIndex (t :: cs) (.inl x) < variantCtorIndex (t :: cs) (.inr y) :=
  le_variantCtorIndexFrom cs y 1

mutual

lemma Ty.ordered : ∀ t : Ty, Ordered t.ops
  | .prim p => p.ordered
  | .array t => t.ordered.array
  | .record fs => recordOps_ordered fs
  | .variant cs => variantOps_ordered cs
  | .sum a b => a.ordered.sum b.ordered

lemma recordOps_ordered : ∀ fs, Ordered (recordOps fs)
  | [] => ordered_unit
  | t :: ts => t.ordered.record (recordOps_ordered ts)

lemma variantOps_ordered : ∀ cs, Ordered (variantOps cs)
  | [] => ordered_void
  | t :: ts => t.ordered.variant (variantOps_ordered ts) (variantCtorIndex_lt t ts)

end

lemma recordOps_agree (fs : List Ty) : Agree (recordOps fs) := by
  induction fs with
  | nil => exact agree_unit
  | cons t ts ih => exact ih.record t.ordered

mutual

/-- There are values of the type. -/
def Ty.inhabited : Ty → Bool
  | .prim _ => true
  | .array _ => true
  | .record fs => allInhabited fs
  | .variant cs => anyInhabited cs
  | .sum a b => a.inhabited || b.inhabited

def allInhabited : List Ty → Bool
  | [] => true
  | t :: ts => t.inhabited && allInhabited ts

def anyInhabited : List Ty → Bool
  | [] => false
  | t :: ts => t.inhabited || anyInhabited ts

end

mutual

lemma Ty.inhabited_iff : ∀ t : Ty, t.inhabited ↔ Nonempty t.Val
  | .prim p => iff_of_true rfl (by
      cases p with
      | unit => exact ⟨()⟩
      | bool => exact ⟨false⟩
      | char | byte => exact ⟨(0 : BitVec 8)⟩
      | short => exact ⟨(0 : BitVec 16)⟩
      | int => exact ⟨(0 : BitVec 32)⟩
      | long | timespan | time | datetime => exact ⟨(0 : BitVec 64)⟩)
  | .array t => iff_of_true rfl ⟨([] : List t.Val)⟩
  | .record fs => allInhabited_iff fs
  | .variant cs => anyInhabited_iff cs
  | .sum a b => by
    rw [Ty.inhabited, Bool.or_eq_true, a.inhabited_iff, b.inhabited_iff]
    exact nonempty_sum.symm

lemma allInhabited_iff : ∀ fs, allInhabited fs ↔ Nonempty (recordVal fs)
  | [] => iff_of_true rfl ⟨()⟩
  | t :: ts => by
    rw [allInhabited, Bool.and_eq_true, t.inhabited_iff, allInhabited_iff ts]
    exact nonempty_prod.symm

lemma anyInhabited_iff : ∀ cs, anyInhabited cs ↔ Nonempty (variantVal cs)
  | [] => iff_of_false Bool.false_ne_true fun ⟨v⟩ => v.elim
  | t :: ts => by
    rw [anyInhabited, Bool.or_eq_true, t.inhabited_iff, anyInhabited_iff ts]
    exact nonempty_sum.symm

end

/-- No variant that is compared with `<=`, `>` and `>=` has a value with a constructor behind the first.
The elements of arrays and the fields of records are not compared with these. -/
def Ty.sound : Ty → Bool
  | .prim _ => true
  | .array _ => true
  | .record _ => true
  | .variant [] => true
  | .variant (t :: ts) => t.sound && !anyInhabited ts
  | .sum a b => a.sound && b.sound

lemma Ty.agree_iff : ∀ t : Ty, Agree t.ops ↔ t.sound
  | .prim p => iff_of_true p.agree rfl
  | .array t => iff_of_true t.ordered.agree_array rfl
  | .record fs => iff_of_true (recordOps_agree fs) rfl
  | .variant [] => iff_of_true agree_void rfl
  | .variant (t :: ts) => by
    have hempty : IsEmpty (variantVal ts) ↔ !anyInhabited ts := by
      rw [← not_nonempty_iff, ← anyInhabited_iff, Bool.not_eq_true, Bool.not_eq_true']
    rw [Ty.sound, Bool.and_eq_true, ← t.agree_iff, ← hempty]
    exact agree_variant (variantOps_ordered ts)
  | .sum a b => by
    rw [Ty.sound, Bool.and_eq_true, ← a.agree_iff, ← b.agree_iff]
    exact agree_sum

/-- The laws of comparisons hold exactly of the types in which no variant that the operators get to has
a value with a constructor behind the first. -/
theorem Ty.lawful_iff (t : Ty) : Ordered t.ops ∧ Agree t.ops ↔ t.sound := by
  rw [← t.agree_iff]
  exact and_iff_right t.ordered

/-- In `|a:int,b:int|`, the value `|b=1|` is not `<=` itself. -/
theorem not_lawful_variant :
    ¬ (Ordered (Ty.variant [.prim .int, .prim .int]).ops ∧
      Agree (Ty.variant [.prim .int, .prim .int]).ops) := by
  rintro ⟨-, h⟩
  have hle := h.le (.inr (.inl (1 : BitVec 32))) (.inr (.inl (1 : BitVec 32)))
  revert hle
  decide

end Hobbes.Lang
