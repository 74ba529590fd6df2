import Hobbes.Lang.MemoryLayout
import Mathlib.Data.BitVec

/-!
# The layout of records

The layout that a record of members without offsets gets, next to the one that C gives to a struct of
these members.
-/

namespace Hobbes.Lang

open Core

/-! ### Padding -/

/-- A member of `n` bytes that stands for padding. -/
def padMember (pfx : Bytes) (p : ℕ) (n : BitVec 64) : Record.Member MonoType :=
  ⟨pfx ++ ascii (toString p), .fixedArray (.prim (ascii "char") none) (.tlong n), -1⟩

/-- The loop of `withExplicitPadding`: what it adds, where it stands, and how much padding there is. -/
def Record.paddingFrom (L : Layout) (pfx : Bytes) (o : BitVec 32) (p : ℕ) :
    List (Record.Member MonoType) → Option (List (Record.Member MonoType) × BitVec 32 × ℕ)
  | [] => some ([], o, p)
  | m :: ms => do
    let pad := if o.slt m.offset then [padMember pfx p ((m.offset - o).signExtend 64)] else []
    let msz ← L.sizeOf m.type
    let (r, o, p) ← Record.paddingFrom L pfx (m.offset + msz) (p + pad.length) ms
    return (pad ++ (if 0 < msz then [m] else []) ++ r, o, p)

def Record.withExplicitPadding (L : Layout) (ms : List (Record.Member MonoType)) (pfx : Bytes) :
    Option (List (Record.Member MonoType)) := do
  let (r, o, p) ← Record.paddingFrom L pfx 0 0 ms
  let talign ← Record.maxFieldAlignment L ms
  let asz := align o talign
  return if 0 < talign ∧ o < asz then r ++ [padMember pfx p ((asz - o).zeroExtend 64)] else r

/-! ### The layout of C -/

/-- From `e` on, the members are aligned and in order, with as little padding as possible. -/
def Record.InOrder (al sz : MonoType → ℕ) : ℕ → List (Record.Member MonoType) → Prop
  | _, [] => True
  | e, m :: ms => (al m.type : ℤ) ∣ m.offset.toInt ∧ (e : ℤ) ≤ m.offset.toInt ∧
      m.offset.toInt < e + al m.type ∧ Record.InOrder al sz (m.offset.toNat + sz m.type) ms

/-- The end of the last member. -/
def Record.endFrom (sz : MonoType → ℕ) (e : ℕ) (ms : List (Record.Member MonoType)) : ℕ :=
  ms.foldl (fun _ m => m.offset.toNat + sz m.type) e

/-- How many bytes the members take. -/
def Record.bytes (sz : MonoType → ℕ) (ms : List (Record.Member MonoType)) : ℕ :=
  (ms.map fun m => sz m.type).sum

/-- The largest of the alignments of the members. -/
def Record.largest (al : MonoType → ℕ) (ms : List (Record.Member MonoType)) : ℕ :=
  (ms.map fun m => al m.type).foldl max 1

/-- The number of bytes of a type of known size. -/
def sizeIn (n : ℕ) (t : MonoType) : ℕ := ((sizeOf n t).getD 0).toNat

/-- The alignment that the compiler uses for a type. -/
def alignmentIn (n : ℕ) (t : MonoType) : ℕ := ((alignment n t).getD 1).toNat

/-- `res` is the C layout of the members `ms`, for the alignments `nat`. -/
structure Record.CLayout (n : ℕ) (nat : MonoType → ℕ) (pfx : Bytes)
    (ms res : List (Record.Member MonoType)) : Prop where
  members : res.map (fun m => { m with offset := -1 }) = ms
  inOrder : Record.InOrder nat (sizeIn n) 0 res
  size : ∃ s, Record.size (layout n) res = some s ∧ Record.endFrom (sizeIn n) 0 res ≤ s.toNat ∧
    Record.largest nat ms ∣ s.toNat ∧
    s.toNat < Record.endFrom (sizeIn n) 0 res + Record.largest nat ms
  padding : ∃ s r, Record.size (layout n) res = some s ∧
    Record.withExplicitPadding (layout n) res pfx = some r ∧ Record.bytes (sizeIn n) r = s.toNat ∧
    ∀ m ∈ res, ∃ before after, r = before ++ after ∧
      Record.bytes (sizeIn n) before = m.offset.toNat ∧
      (0 < sizeIn n m.type → after.head? = some m)

/-- Where the members end in the C layout. -/
def Record.cEnd (nat sz : MonoType → ℕ) : ℕ → List (Record.Member MonoType) → ℕ
  | e, [] => e
  | e, m :: ms => Record.cEnd nat sz (roundUp e (nat m.type) + sz m.type) ms

/-- Where a member comes in the C layout, the alignment `al` is as good as the natural one, and the
offset is one that an `int` holds. -/
def Record.Suffices (al nat sz : MonoType → ℕ) : ℕ → List (Record.Member MonoType) → Prop
  | _, [] => True
  | e, m :: ms => nat m.type ∣ roundUp e (al m.type) ∧ roundUp e (nat m.type) < 2 ^ 31 ∧
      Record.Suffices al nat sz (roundUp e (nat m.type) + sz m.type) ms

/-! ### The loop -/

lemma align_toNat {x m : BitVec 32} (hm : 0 < m.toNat) :
    (align x m).toNat = roundUp x.toNat m.toNat % 2 ^ 32 := by
  have hx := x.isLt
  have hmod : (x % m).toNat = x.toNat % m.toNat := BitVec.toNat_umod
  have hne : m ≠ 0 := by
    rintro rfl
    exact Nat.lt_irrefl 0 hm
  unfold align
  by_cases hzero : x % m = 0
  · have hdvd : m.toNat ∣ x.toNat := Nat.dvd_of_mod_eq_zero (by rw [← hmod, hzero]; rfl)
    rw [if_pos (.inr hzero), roundUp_eq_self hm hdvd, Nat.mod_eq_of_lt hx]
  · rw [if_neg (not_or.mpr ⟨hne, hzero⟩)]
    have hpos : 0 < x.toNat % m.toNat := by
      rw [← hmod]
      exact Nat.pos_of_ne_zero fun h => hzero (BitVec.eq_of_toNat_eq h)
    have hdiv := Nat.div_add_mod x.toNat m.toNat
    have hlt := Nat.mod_lt x.toNat hm
    have hround : (1 + x.toNat / m.toNat) * m.toNat = roundUp x.toNat m.toNat := by
      refine eq_roundUp hm (Nat.dvd_mul_left ..) ?_ ?_
      · rw [Nat.add_mul, Nat.mul_comm (x.toNat / m.toNat)]
        omega
      · rw [Nat.add_mul, Nat.mul_comm (x.toNat / m.toNat)]
        omega
    rw [BitVec.toNat_mul, BitVec.toNat_add, BitVec.toNat_udiv, ← hround]
    simp [Nat.mod_mul_mod]

/-- The loop of `withResolvedMemoryLayout` on members without offsets. -/
def Record.placeFrom (L : Layout) (o : BitVec 32) :
    List (Record.Member MonoType) → Option (List (Record.Member MonoType))
  | [] => some []
  | m :: ms => do
    let a ← L.alignment m.type
    let sz ← L.sizeOf m.type
    let ms ← Record.placeFrom L (align o a + sz) ms
    return { m with offset := align o a } :: ms

section

variable {L : Layout} {ms ms' r res : List (Record.Member MonoType)} {o : BitVec 32}

lemma Record.resolveFrom_default (hdefault : ∀ m ∈ ms, m.offset = -1)
    (hclosed : ∀ m ∈ ms, m.type.isMonoSingular) :
    Record.resolveFrom L ms' r o ms = (Record.placeFrom L o ms).map (r ++ ·) := by
  induction ms generalizing r o with
  | nil => simp [Record.resolveFrom, Record.placeFrom]
  | cons m ms ih =>
    have hm := hclosed m List.mem_cons_self
    have hplace : ∀ o, Record.place m o = some { m with offset := o } := fun o =>
      if_pos (hdefault m List.mem_cons_self)
    have hms := fun r o => ih (r := r) (o := o) (fun m' h => hdefault m' (List.mem_cons_of_mem m h))
      fun m' h => hclosed m' (List.mem_cons_of_mem m h)
    simp only [Record.resolveFrom, hm, not_true_eq_false, if_false, hplace, hms, Record.placeFrom,
      Option.bind_eq_bind, Option.bind_some]
    cases L.alignment m.type with
    | none => rfl
    | some a =>
      cases L.sizeOf m.type with
      | none => rfl
      | some sz =>
        simp only [Option.bind_some]
        cases Record.placeFrom L (align o a + sz) ms with
        | none => rfl
        | some ms' => simp

lemma Record.placeFrom_cons {m : Record.Member MonoType}
    (h : Record.placeFrom L o (m :: ms) = some res) : ∃ a sz ms', L.alignment m.type = some a ∧
      L.sizeOf m.type = some sz ∧ Record.placeFrom L (align o a + sz) ms = some ms' ∧
      res = { m with offset := align o a } :: ms' := by
  simp only [Record.placeFrom, Option.bind_eq_bind, Option.bind_eq_some_iff, pure,
    Option.some.injEq] at h
  obtain ⟨a, ha, sz, hsz, ms', hms', rfl⟩ := h
  exact ⟨a, sz, ms', ha, hsz, hms', rfl⟩

lemma Record.placeFrom_alignment (h : Record.placeFrom L o ms = some res) :
    ∀ m ∈ ms, ∃ a, L.alignment m.type = some a := by
  induction ms generalizing o res with
  | nil => simp
  | cons m ms ih =>
    obtain ⟨a, sz, ms', ha, -, hms', -⟩ := Record.placeFrom_cons h
    exact List.forall_mem_cons.mpr ⟨⟨a, ha⟩, ih hms'⟩

lemma Record.placeFrom_known (h : Record.placeFrom L o ms = some res) :
    ∀ m ∈ res, (∃ a, L.alignment m.type = some a) ∧ ∃ sz, L.sizeOf m.type = some sz := by
  induction ms generalizing o res with
  | nil => cases h; simp
  | cons m ms ih =>
    obtain ⟨a, sz, ms', ha, hsz, hms', rfl⟩ := Record.placeFrom_cons h
    exact List.forall_mem_cons.mpr ⟨⟨⟨a, ha⟩, sz, hsz⟩, ih hms'⟩

lemma Record.placeFrom_members (h : Record.placeFrom L o ms = some res)
    (hdefault : ∀ m ∈ ms, m.offset = -1) : res.map (fun m => { m with offset := -1 }) = ms := by
  induction ms generalizing o res with
  | nil => cases h; rfl
  | cons m ms ih =>
    obtain ⟨a, sz, ms', -, -, hms', rfl⟩ := Record.placeFrom_cons h
    have hm := hdefault m List.mem_cons_self
    rw [List.map_cons, ih hms' fun m' h => hdefault m' (List.mem_cons_of_mem m h), ← hm]

end

section

variable {n e : ℕ} {nat : MonoType → ℕ} {ms res : List (Record.Member MonoType)} {o s : BitVec 32}

lemma alignmentIn_eq {t : MonoType} {a : BitVec 32} (h : alignment n t = some a) :
    alignmentIn n t = a.toNat := by rw [alignmentIn, h]; rfl

lemma sizeIn_eq {t : MonoType} {sz : BitVec 32} (h : sizeOf n t = some sz) :
    sizeIn n t = sz.toNat := by rw [sizeIn, h]; rfl

/-- An offset that an `int` holds is not negative. -/
lemma toInt_of_le {x : BitVec 32} (h : (e : ℤ) ≤ x.toInt) :
    x.toInt = x.toNat ∧ x.toNat < 2 ^ 31 := by
  have hx := x.isLt
  rw [BitVec.toInt_eq_toNat_cond] at h ⊢
  split_ifs at h ⊢ <;> omega

lemma toInt_of_lt {x : BitVec 32} (h : x.toNat < 2 ^ 31) : x.toInt = x.toNat := by
  rw [BitVec.toInt_eq_toNat_cond, if_pos (by omega)]

lemma dvd_of_le {a b : ℕ} (ha : a ∣ 8) (hb : b ∣ 8) (hab : a ≤ b) : a ∣ b := by
  have halt := Nat.lt_succ_of_le (Nat.le_of_dvd (by decide) ha)
  have hblt := Nat.lt_succ_of_le (Nat.le_of_dvd (by decide) hb)
  exact (by decide : ∀ x < 9, ∀ y < 9, x ∣ 8 → y ∣ 8 → x ≤ y → x ∣ y) a halt b hblt ha hb hab

/-- Where the compiler puts a member that C puts at the next multiple of `N` from `e` on. -/
lemma offset_inOrder_iff {A N : ℕ} {x : BitVec 32} (hx : x.toNat = roundUp (e % 2 ^ 32) A % 2 ^ 32)
    (hA : A ∣ N) (hN : N ∣ 8) :
    ((N : ℤ) ∣ x.toInt ∧ (e : ℤ) ≤ x.toInt ∧ x.toInt < e + N ↔
        N ∣ roundUp e A ∧ roundUp e N < 2 ^ 31) ∧
      (N ∣ roundUp e A ∧ roundUp e N < 2 ^ 31 →
        x.toInt = x.toNat ∧ x.toNat = roundUp e A ∧ roundUp e A = roundUp e N) := by
  have hNpos := Nat.pos_of_dvd_of_pos hN (by decide)
  have hApos := Nat.pos_of_dvd_of_pos hA hNpos
  have hNle := Nat.le_of_dvd (by decide) hN
  have hAle := Nat.le_of_dvd hNpos hA
  have hlt := roundUp_lt (x := e) hApos
  have hle := le_roundUp (x := e) hApos
  have hsmall : N ∣ roundUp e A ∧ roundUp e N < 2 ^ 31 →
      x.toInt = x.toNat ∧ x.toNat = roundUp e A ∧ roundUp e A = roundUp e N := by
    rintro ⟨hdvd, hround⟩
    have heq := roundUp_eq_of_dvd hNpos hA hdvd
    have hnat : x.toNat = roundUp e A := by
      rw [hx, Nat.mod_eq_of_lt (a := e) (by omega), Nat.mod_eq_of_lt (by omega)]
    exact ⟨toInt_of_lt (by omega), hnat, heq⟩
  refine ⟨⟨?_, fun h => ?_⟩, hsmall⟩
  · rintro ⟨hdvd, hge, -⟩
    obtain ⟨hint, hbound⟩ := toInt_of_le hge
    rw [hint] at hdvd hge
    have hnat : x.toNat = roundUp e A := by
      rw [hx, Nat.mod_eq_of_lt (a := e) (by omega), Nat.mod_eq_of_lt (by omega)]
    rw [hnat] at hbound hdvd
    have hdvd' := Int.natCast_dvd_natCast.mp hdvd
    exact ⟨hdvd', roundUp_eq_of_dvd hNpos hA hdvd' ▸ hbound⟩
  · obtain ⟨hint, hnat, heq⟩ := hsmall h
    rw [hint, hnat]
    exact ⟨Int.natCast_dvd_natCast.mpr h.1, by omega, by omega⟩

/-- The members are in order exactly if the alignments suffice, and then they are where C has them. -/
lemma Record.placeFrom_inOrder (h : Record.placeFrom (layout n) o ms = some res)
    (ho : o.toNat = e % 2 ^ 32) (hnat : ∀ m ∈ ms, naturalAlignment n m.type = some (nat m.type)) :
    (Record.InOrder nat (sizeIn n) e res ↔
        Record.Suffices (alignmentIn n) nat (sizeIn n) e ms) ∧
      (Record.Suffices (alignmentIn n) nat (sizeIn n) e ms →
        Record.endFrom (sizeIn n) e res = Record.cEnd nat (sizeIn n) e ms ∧
        Record.InOrder (alignmentIn n) (sizeIn n) e res) := by
  induction ms generalizing o e res with
  | nil =>
    cases h
    exact ⟨Iff.rfl, fun _ => ⟨rfl, trivial⟩⟩
  | cons m ms ih =>
    obtain ⟨a, sz, ms', ha, hsz, hms', rfl⟩ := Record.placeFrom_cons h
    have hnatm := hnat m List.mem_cons_self
    obtain ⟨hdvd, hle⟩ := alignment_dvd ha
    have hdvd' := naturalAlignment_dvd hnatm
    have hale := hle _ hnatm
    have hpos : 0 < a.toNat := Nat.pos_of_dvd_of_pos hdvd (by decide)
    have hoff : (align o a).toNat = roundUp (e % 2 ^ 32) a.toNat % 2 ^ 32 := by
      rw [align_toNat hpos, ho]
    obtain ⟨hiff, hplace⟩ := offset_inOrder_iff hoff (dvd_of_le hdvd hdvd' (hle _ hnatm)) hdvd'
    have hrest : ∀ x, (align o a).toNat = x →
        (align o a + sz).toNat = (x + sizeIn n m.type) % 2 ^ 32 := by
      rintro x rfl
      rw [BitVec.toNat_add, sizeIn_eq hsz]
    have hih := fun x hx => ih (e := x + sizeIn n m.type) hms' (hrest x hx)
      fun m' h => hnat m' (List.mem_cons_of_mem m h)
    simp only [Record.InOrder, Record.Suffices, alignmentIn_eq ha, Record.endFrom, List.foldl_cons,
      Record.cEnd]
    constructor
    · rw [← and_assoc, ← and_assoc, and_assoc (a := _ ∣ _), hiff, ← and_assoc]
      refine and_congr_right fun hok => ?_
      obtain ⟨-, hnat, heq⟩ := hplace hok
      rw [hnat, heq]
      exact (hih _ (hnat.trans heq)).1
    · rintro ⟨hdvd₁, hround, hsuff⟩
      obtain ⟨hint, hnat, heq⟩ := hplace ⟨hdvd₁, hround⟩
      obtain ⟨hend, hcode⟩ := (hih _ (hnat.trans heq)).2 hsuff
      have hlt := roundUp_lt (x := e) hpos
      have hle := le_roundUp (x := e) hpos
      rw [hint, hnat, heq]
      rw [heq] at hlt hle
      exact ⟨hend, Int.natCast_dvd_natCast.mpr (heq ▸ dvd_roundUp e a.toNat), by omega, by omega, hcode⟩

end

/-! ### Sizes and padding -/

section

variable {n e : ℕ} {al nat sz : MonoType → ℕ} {ms res : List (Record.Member MonoType)}
  {o M : BitVec 32} {m : Record.Member MonoType}

lemma Record.inOrder_concat : Record.InOrder al sz e (ms ++ [m]) ↔ Record.InOrder al sz e ms ∧
    (al m.type : ℤ) ∣ m.offset.toInt ∧ (Record.endFrom sz e ms : ℤ) ≤ m.offset.toInt ∧
      m.offset.toInt < Record.endFrom sz e ms + al m.type := by
  induction ms generalizing e with
  | nil => simp [Record.InOrder, Record.endFrom]
  | cons m' ms ih =>
    rw [List.cons_append, Record.InOrder, ih, Record.InOrder, and_assoc, and_assoc, and_assoc]
    rfl

lemma Record.endFrom_concat :
    Record.endFrom sz e (ms ++ [m]) = m.offset.toNat + sz m.type := by
  rw [Record.endFrom, List.foldl_append]
  rfl

/-- Members without a size at the end make no difference. -/
lemma Record.sizeFrom_eq (hsz : ∀ m ∈ ms, ∃ sz, sizeOf n m.type = some sz)
    (hin : Record.InOrder (alignmentIn n) (sizeIn n) 0 ms) (hM : 0 < M.toNat)
    (hdvd : ∀ m ∈ ms, alignmentIn n m.type ∣ M.toNat) :
    ∃ s, Record.sizeFrom (layout n) M ms.reverse = some s ∧
      (Record.endFrom (sizeIn n) 0 ms < 2 ^ 32 →
        s.toNat = roundUp (Record.endFrom (sizeIn n) 0 ms) M.toNat % 2 ^ 32) := by
  induction ms using List.reverseRecOn with
  | nil =>
    refine ⟨0, rfl, fun _ => ?_⟩
    rw [Record.endFrom, List.foldl_nil, roundUp_eq_self hM (Nat.dvd_zero _)]
    rfl
  | append_singleton ms m ih =>
    obtain ⟨hin, haligned, hle, hlt⟩ := Record.inOrder_concat.mp hin
    obtain ⟨s, hs, hsize⟩ := ih (fun m' h => hsz m' (List.mem_append_left _ h)) hin
      fun m' h => hdvd m' (List.mem_append_left _ h)
    have hmem : m ∈ ms ++ [m] := List.mem_append_right ms List.mem_cons_self
    obtain ⟨fsz, hfsz⟩ := hsz m hmem
    obtain ⟨hint, -⟩ := toInt_of_le hle
    rw [hint] at haligned hle hlt
    rw [List.reverse_concat, Record.sizeFrom, Record.endFrom_concat, sizeIn_eq hfsz]
    have hfsz' : (layout n).sizeOf m.type = some fsz := hfsz
    simp only [hfsz', Option.bind_eq_bind, Option.bind_some]
    by_cases hpos : 0 < fsz
    · rw [if_pos hpos]
      refine ⟨_, rfl, fun hend => ?_⟩
      rw [align_toNat hM, BitVec.toNat_add, Nat.mod_eq_of_lt hend]
    · rw [if_neg hpos]
      have hzero : fsz.toNat = 0 := Nat.eq_zero_of_not_pos hpos
      have hdvdm := hdvd m hmem
      have hround : m.offset.toNat =
          roundUp (Record.endFrom (sizeIn n) 0 ms) (alignmentIn n m.type) :=
        eq_roundUp (Nat.pos_of_dvd_of_pos hdvdm hM) (Int.natCast_dvd_natCast.mp haligned) (by omega)
          (by omega)
      refine ⟨s, hs, fun hend => ?_⟩
      rw [hsize (by omega), hzero, Nat.add_zero, hround, roundUp_roundUp hM hdvdm]

lemma Record.maxFieldAlignment_eq (hal : ∀ m ∈ ms, ∃ a, alignment n m.type = some a) :
    ∃ M, Record.maxFieldAlignment (layout n) ms = some M ∧
      M.toNat = Record.largest (alignmentIn n) ms := by
  have has : ms.mapM (fun m => (layout n).alignment m.type) =
      some (ms.map fun m => (alignment n m.type).getD 1) := by
    rw [mapM_eq_some, List.forall₂_map_right_iff, List.forall₂_same]
    intro m hm
    obtain ⟨a, ha⟩ := hal m hm
    rw [ha]
    exact ha
  refine ⟨_, by rw [Record.maxFieldAlignment, has]; rfl, ?_⟩
  rw [foldl_umax_toNat, List.map_map]
  rfl

lemma Record.dvd_largest (hal : ∀ m ∈ ms, al m.type ∣ 8) :
    Record.largest al ms ∣ 8 ∧ ∀ m ∈ ms, al m.type ∣ Record.largest al ms := by
  have hdvd : Record.largest al ms ∣ 8 := foldl_max_dvd (by decide) (by simpa using hal)
  refine ⟨hdvd, fun m hm => dvd_of_le (hal m hm) hdvd ?_⟩
  exact mem_le_foldl_max (List.mem_map_of_mem (f := fun m => al m.type) hm)

lemma Record.size_eq (hsz : ∀ m ∈ ms, ∃ sz, sizeOf n m.type = some sz)
    (hal : ∀ m ∈ ms, ∃ a, alignment n m.type = some a)
    (hin : Record.InOrder (alignmentIn n) (sizeIn n) 0 ms) :
    ∃ s, Record.size (layout n) ms = some s ∧
      (Record.endFrom (sizeIn n) 0 ms < 2 ^ 32 → s.toNat =
        roundUp (Record.endFrom (sizeIn n) 0 ms) (Record.largest (alignmentIn n) ms) % 2 ^ 32) := by
  obtain ⟨M, hM, hlargest⟩ := Record.maxFieldAlignment_eq hal
  have hdvd : ∀ m ∈ ms, alignmentIn n m.type ∣ 8 := by
    intro m hm
    obtain ⟨a, ha⟩ := hal m hm
    exact alignmentIn_eq ha ▸ (alignment_dvd ha).1
  obtain ⟨height, hmem⟩ := Record.dvd_largest hdvd
  have hpos := Nat.pos_of_dvd_of_pos height (by decide)
  rw [← hlargest] at hmem hpos ⊢
  rw [Record.size]
  split_ifs with hnil
  · subst hnil
    refine ⟨0, rfl, fun _ => ?_⟩
    rw [Record.endFrom, List.foldl_nil, roundUp_eq_self hpos (Nat.dvd_zero _)]
    rfl
  · simp only [hM, Option.bind_eq_bind, Option.bind_some]
    exact Record.sizeFrom_eq hsz hin hpos hmem

lemma Record.bytes_append (r r' : List (Record.Member MonoType)) :
    Record.bytes sz (r ++ r') = Record.bytes sz r + Record.bytes sz r' := by
  rw [Record.bytes, List.map_append, List.sum_append]
  rfl

lemma truncate_signExtend (y : BitVec 32) : (y.signExtend 64).truncate 32 = y := by
  apply BitVec.eq_of_getLsbD_eq
  intro i hi
  rw [BitVec.truncate_eq_setWidth, BitVec.getLsbD_setWidth, BitVec.getLsbD_signExtend]
  simp [hi]
  omega

lemma truncate_zeroExtend (y : BitVec 32) : (y.zeroExtend 64).truncate 32 = y := by
  apply BitVec.eq_of_getLsbD_eq
  intro i hi
  simp [hi]

/-- Padding takes the bytes that it is made for. -/
lemma bytes_padMember (pfx : Bytes) (p : ℕ) {x : BitVec 64} {y : BitVec 32}
    (h : x.truncate 32 = y) : Record.bytes (sizeIn (n + 2)) [padMember pfx p x] = y.toNat := by
  have hchar : primSize (ascii "char") = some 1 := by decide
  have hsize : sizeOf (n + 2) (padMember pfx p x).type = some y := by
    simp [padMember, sizeOf, normIfOpaquePtr, hchar, ← h]
  rw [Record.bytes, List.map_singleton, List.sum_singleton, sizeIn_eq hsize]

/-- What is added up to a member ends where the member starts. -/
lemma Record.paddingFrom_eq (pfx : Bytes) {p : ℕ}
    (hsz : ∀ m ∈ ms, ∃ sz, sizeOf (n + 2) m.type = some sz)
    (hin : Record.InOrder al (sizeIn (n + 2)) e ms) (ho : o.toNat = e % 2 ^ 32) :
    ∃ r o' p', Record.paddingFrom (layout (n + 2)) pfx o p ms = some (r, o', p') ∧
      e + Record.bytes (sizeIn (n + 2)) r = Record.endFrom (sizeIn (n + 2)) e ms ∧
      o'.toNat = Record.endFrom (sizeIn (n + 2)) e ms % 2 ^ 32 ∧
      ∀ m ∈ ms, ∃ before after, r = before ++ after ∧
        e + Record.bytes (sizeIn (n + 2)) before = m.offset.toNat ∧
        (0 < sizeIn (n + 2) m.type → after.head? = some m) := by
  induction ms generalizing e o p with
  | nil => exact ⟨[], o, p, rfl, rfl, ho, by simp⟩
  | cons m ms ih =>
    obtain ⟨-, hle, -, hin⟩ := hin
    obtain ⟨hint, hbound⟩ := toInt_of_le hle
    obtain ⟨msz, hmsz⟩ := hsz m List.mem_cons_self
    have hmsz' : (layout (n + 2)).sizeOf m.type = some msz := hmsz
    have hsizeIn := sizeIn_eq hmsz
    rw [hint] at hle
    have he : e < 2 ^ 31 := by omega
    rw [Nat.mod_eq_of_lt (by omega)] at ho
    have hoint : o.toInt = e := by rw [toInt_of_lt (by omega), ho]
    have hslt : o.slt m.offset = true ↔ e < m.offset.toNat := by
      rw [BitVec.slt_iff_toInt_lt, hoint, hint]
      omega
    -- the padding in front of the member
    let pad := if o.slt m.offset then [padMember pfx p ((m.offset - o).signExtend 64)] else []
    have hpad : e + Record.bytes (sizeIn (n + 2)) pad = m.offset.toNat := by
      by_cases hlt : e < m.offset.toNat
      · have hsub : (m.offset - o).toNat = m.offset.toNat - e := by
          rw [BitVec.toNat_sub_of_le (by rw [BitVec.le_def, ho]; omega), ho]
        rw [show pad = _ from if_pos (hslt.mpr hlt), bytes_padMember pfx p (truncate_signExtend _), hsub]
        omega
      · rw [show pad = _ from if_neg (mt hslt.mp hlt)]
        have : Record.bytes (sizeIn (n + 2)) [] = 0 := rfl
        omega
    have hself : Record.bytes (sizeIn (n + 2)) (if 0 < msz then [m] else []) =
        sizeIn (n + 2) m.type := by
      split_ifs with hpos
      · exact List.sum_singleton
      · rw [hsizeIn]
        exact (Nat.eq_zero_of_not_pos hpos).symm
    obtain ⟨r, o', p', hr, hbytes, ho', hbound'⟩ :=
      ih (p := p + pad.length) (fun m' h => hsz m' (List.mem_cons_of_mem m h)) hin
        (o := m.offset + msz) (by rw [BitVec.toNat_add, hsizeIn])
    refine ⟨pad ++ (if 0 < msz then [m] else []) ++ r, o', p', ?_, ?_, ho', ?_⟩
    · simp only [Record.paddingFrom, hmsz', Option.bind_eq_bind, Option.bind_some]
      have hr' : Record.paddingFrom (layout (n + 2)) pfx (m.offset + msz) (p + List.length
          (if o.slt m.offset then [padMember pfx p ((m.offset - o).signExtend 64)] else [])) ms =
          some (r, o', p') := hr
      rw [hr']
      rfl
    · rw [Record.bytes_append, Record.bytes_append, hself, ← Nat.add_assoc, ← Nat.add_assoc, hpad,
        hbytes]
      rfl
    · intro m' hm'
      rcases List.mem_cons.mp hm' with rfl | hm'
      · refine ⟨pad, (if 0 < msz then [m'] else []) ++ r, List.append_assoc .., hpad, fun hpos => ?_⟩
        rw [hsizeIn] at hpos
        rw [if_pos (show 0 < msz from hpos)]
        rfl
      · obtain ⟨before, after, rfl, hbefore, hafter⟩ := hbound' m' hm'
        refine ⟨pad ++ (if 0 < msz then [m] else []) ++ before, after, by simp, ?_, hafter⟩
        rw [Record.bytes_append, Record.bytes_append, hself, ← Nat.add_assoc, ← Nat.add_assoc, hpad]
        exact hbefore

lemma Record.withExplicitPadding_eq (pfx : Bytes) {x : ℕ}
    (hsz : ∀ m ∈ ms, ∃ sz, sizeOf (n + 2) m.type = some sz)
    (hal : ∀ m ∈ ms, ∃ a, alignment (n + 2) m.type = some a)
    (hin : Record.InOrder al (sizeIn (n + 2)) 0 ms)
    (hx : roundUp (Record.endFrom (sizeIn (n + 2)) 0 ms)
      (Record.largest (alignmentIn (n + 2)) ms) = x) (hlt : x < 2 ^ 32) :
    ∃ r, Record.withExplicitPadding (layout (n + 2)) ms pfx = some r ∧
      Record.bytes (sizeIn (n + 2)) r = x ∧
      ∀ m ∈ ms, ∃ before after, r = before ++ after ∧
        Record.bytes (sizeIn (n + 2)) before = m.offset.toNat ∧
        (0 < sizeIn (n + 2) m.type → after.head? = some m) := by
  obtain ⟨M, hM, hlargest⟩ := Record.maxFieldAlignment_eq hal
  obtain ⟨r, o, p, hr, hbytes, ho, hbound⟩ :=
    Record.paddingFrom_eq pfx (p := 0) (o := 0) hsz hin rfl
  have hpos : 0 < M.toNat := by
    rw [hlargest]
    exact le_foldl_max _ 1
  have hle := le_roundUp (x := Record.endFrom (sizeIn (n + 2)) 0 ms) hpos
  rw [← hlargest] at hx
  rw [hx] at hle
  rw [Nat.mod_eq_of_lt (by omega)] at ho
  rw [Nat.zero_add] at hbytes
  have hasz : (align o M).toNat = x := by
    rw [align_toNat hpos, ho, hx, Nat.mod_eq_of_lt hlt]
  have hsub : (align o M - o).toNat = x - Record.endFrom (sizeIn (n + 2)) 0 ms := by
    rw [BitVec.toNat_sub_of_le (by rw [BitVec.le_def, ho, hasz]; exact hle), hasz, ho]
  simp only [Nat.zero_add] at hbound
  simp only [Record.withExplicitPadding, hr, hM, Option.bind_eq_bind, Option.bind_some]
  refine ⟨_, rfl, ?_, fun m hm => ?_⟩
  · split_ifs with hpad
    · rw [Record.bytes_append, hbytes, bytes_padMember pfx p (truncate_zeroExtend _), hsub]
      omega
    · have hge : ¬ o.toNat < (align o M).toNat := fun h => hpad ⟨hpos, h⟩
      rw [ho, hasz] at hge
      rw [hbytes]
      omega
  · obtain ⟨before, after, rfl, hbefore, hafter⟩ := hbound m hm
    split_ifs with hpad
    · refine ⟨before, after ++ _, List.append_assoc .., hbefore, fun h => ?_⟩
      rw [List.head?_append, hafter h]
      rfl
    · exact ⟨before, after, rfl, hbefore, hafter⟩

end

/-! ### The C layout -/

/-- In the C layout of the members, `alignment` is as good as the natural alignment wherever it counts,
and the offsets and the size are numbers that the compiler can hold. -/
def Record.SameAsC (n : ℕ) (nat : MonoType → ℕ) (ms : List (Record.Member MonoType)) : Prop :=
  Record.Suffices (alignmentIn n) nat (sizeIn n) 0 ms ∧
    Record.largest nat ms ∣
      roundUp (Record.cEnd nat (sizeIn n) 0 ms) (Record.largest (alignmentIn n) ms) ∧
    roundUp (Record.cEnd nat (sizeIn n) 0 ms) (Record.largest nat ms) < 2 ^ 32

end Hobbes.Lang
