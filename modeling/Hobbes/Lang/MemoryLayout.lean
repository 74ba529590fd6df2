import Hobbes.Core.Align
import Hobbes.Core.Lists
import Hobbes.Lang.Substitution

/-!
# Sizes and alignments

`sizeOf` and `alignment` of types, and the alignment that the representation of a type calls for. `n`
bounds how deep they look into a type.
-/

namespace Hobbes.Lang

open Core

/-- The bytes of a name that is written in the source. -/
def ascii (s : String) : Bytes := s.toList.map fun c => UInt8.ofNat c.toNat

/-- `std::max`. -/
def umax (a b : BitVec 32) : BitVec 32 := if a < b then b else a

/-- `withPrim`. -/
def primSizes : List (Bytes × BitVec 32) :=
  [(ascii "unit", 0), (ascii "bool", 1), (ascii "char", 1), (ascii "byte", 1), (ascii "short", 2),
    (ascii "int", 4), (ascii "long", 8), (ascii "float", 4), (ascii "double", 8), (ascii "void", 0)]

def primSize (pn : Bytes) : Option (BitVec 32) := primSizes.lookup pn

/-- The sizes of applications of type functions that are known by name. -/
def appSizes : List (Bytes × BitVec 32) :=
  [(ascii "->", 8), (ascii "closure", 8), (ascii "[]", 8), (ascii "list", 8), (ascii "fseq", 8),
    (ascii "lseq", 8), (ascii "file", 8), (ascii "fileref", 8), (ascii "process", 8),
    (ascii "connection", 0), (ascii "quote", 0), (ascii "promise", 8)]

def appSize (f : Bytes) : Option (BitVec 32) := appSizes.lookup f

/-- The function and the arguments of the innermost application. -/
def MonoType.uncurried : MonoType → List MonoType → MonoType × List MonoType
  | .tapp f targs, _ => f.uncurried targs
  | f, targs => (f, targs)

/-- `isFileRef` of an application of `f`. -/
def isFileRef : MonoType → Bool
  | .prim nm _ => nm = ascii "fileref"
  | _ => false

/-! ### Variants and records -/

section

variable (L : Layout)

def Variant.payloadOffset (ms : List (Variant.Member MonoType)) : Option (BitVec 32) := do
  let as ← ms.mapM fun m => L.alignment m.type
  return as.foldl (fun o a => umax o (align 4 a)) 4

def Variant.payloadSize (ms : List (Variant.Member MonoType)) : Option (BitVec 32) := do
  let szs ← ms.mapM fun m => L.sizeOf m.type
  return szs.foldl umax 0

def Variant.size (ms : List (Variant.Member MonoType)) : Option (BitVec 32) := do
  let as ← ms.mapM fun m => L.alignment m.type
  let o ← Variant.payloadOffset L ms
  let sz ← Variant.payloadSize L ms
  return align (o + sz) (as.foldl umax 4)

/-- `maxFieldAlignment`, which is also the alignment of a record. -/
def Record.maxFieldAlignment (ms : List (Record.Member MonoType)) : Option (BitVec 32) := do
  let as ← ms.mapM fun m => L.alignment m.type
  return as.foldl umax 1

/-- The loop of `Record::size`, from the last member on. -/
def Record.sizeFrom (malign : BitVec 32) : List (Record.Member MonoType) → Option (BitVec 32)
  | [] => some 0
  | m :: ms => do
    let fsz ← L.sizeOf m.type
    if 0 < fsz then return align (m.offset + fsz) malign
    else Record.sizeFrom malign ms

def Record.size (ms : List (Record.Member MonoType)) : Option (BitVec 32) :=
  if ms = [] then some 0
  else do
    let malign ← Record.maxFieldAlignment L ms
    Record.sizeFrom L malign ms.reverse

end

/-! ### Types -/

mutual

def alignment : ℕ → MonoType → Option (BitVec 32)
  | 0, _ => none
  | n + 1, t =>
    match t with
    | .prim nm none => (primSize nm).map fun sz => if sz = 0 then 1 else sz
    -- a type is unit if its size is 0
    | .prim _ (some r) => if sizeOf n r = some 0 then some 1 else alignment n r
    | .variant ms => do
      let o ← Variant.payloadOffset ⟨alignment n, sizeOf n⟩ ms
      return if o = 4 then 4 else 8
    | .fixedArray ty _ => alignment n (normIfOpaquePtr ty)
    | .opaquePtr _ _ _ => some 8
    | .array _ => some 8
    | .func _ _ => some 8
    | .record ms => Record.maxFieldAlignment ⟨alignment n, sizeOf n⟩ ms
    | .recursive _ _ => some 8
    | .tapp f _ => some (if isFileRef f then 8 else 1)
    | .existsType _ _ => some 1
    | .tvar _ => some 1
    | .tgen _ => some 1
    | .tabs _ _ => some 1
    | .tstring _ => some 1
    | .tlong _ => some 1

def sizeOf : ℕ → MonoType → Option (BitVec 32)
  | 0, _ => none
  | n + 1, t =>
    match t with
    | .prim nm none => primSize nm
    | .prim _ (some r) => sizeOf n r
    | .opaquePtr _ sz scontig => some (if scontig then sz else 8)
    | .fixedArray ty (.tlong x) => (sizeOf n (normIfOpaquePtr ty)).map fun sz => sz * x.truncate 32
    | .fixedArray _ _ => none
    | .array _ => some 8
    | .variant ms => Variant.size ⟨alignment n, sizeOf n⟩ ms
    | .record ms => Record.size ⟨alignment n, sizeOf n⟩ ms
    | .func _ _ => some 8
    | .existsType _ _ => some 8
    | .recursive _ _ => some 8
    | .tapp f targs =>
      match f.uncurried targs with
      | (.prim nm repr, targs) =>
        match appSize nm, repr with
        | some sz, _ => some sz
        | none, some (.tabs ns b) => do
          let t ← substitute ⟨alignment n, sizeOf n⟩ n (substitution ns targs) b
          sizeOf n t
        | none, _ => none
      | _ => none
    | .tvar _ => none
    | .tgen _ => none
    | .tabs _ _ => none
    | .tstring _ => some 0
    | .tlong _ => some 0

end

def layout (n : ℕ) : Layout := ⟨alignment n, sizeOf n⟩

/-! ### What the representation calls for -/

/-- The alignment of what stands for a value: a number is as strictly aligned as it is large, a pointer
is 8 bytes, and a compound type is as strictly aligned as its parts. -/
def naturalAlignment : ℕ → MonoType → Option ℕ
  | 0, _ => none
  | n + 1, t =>
    match t with
    | .prim nm none => (primSize nm).map fun sz => if sz = 0 then 1 else sz.toNat
    | .prim _ (some r) => if sizeOf n r = some 0 then some 1 else naturalAlignment n r
    | .fixedArray ty _ => naturalAlignment n (normIfOpaquePtr ty)
    | .variant ms => do
      let as ← ms.mapM fun m => naturalAlignment n m.type
      return as.foldl max 4
    | .record ms => do
      let as ← ms.mapM fun m => naturalAlignment n m.type
      return as.foldl max 1
    | .opaquePtr _ _ _ => some 8
    | .array _ => some 8
    | .func _ _ => some 8
    | .existsType _ _ => some 8
    | .recursive _ _ => some 8
    | .tapp f targs =>
      match f.uncurried targs with
      | (.prim nm repr, targs) =>
        match appSize nm, repr with
        | some sz, _ => some (if sz = 0 then 1 else 8)
        | none, some (.tabs ns b) => do
          let t ← substitute (layout n) n (substitution ns targs) b
          naturalAlignment n t
        | none, _ => none
      | _ => none
    | .tvar _ => none
    | .tgen _ => none
    | .tabs _ _ => none
    | .tstring _ => some 1
    | .tlong _ => some 1

/-! ### Alignments divide eight -/

lemma primSize_dvd {nm : Bytes} {sz : BitVec 32} (h : primSize nm = some sz) :
    sz = 0 ∨ sz.toNat ∣ 8 :=
  (by decide : ∀ p ∈ primSizes, p.2 = 0 ∨ p.2.toNat ∣ 8) _ (mem_of_lookup h)

lemma appSize_cases {nm : Bytes} {sz : BitVec 32} (h : appSize nm = some sz) : sz = 0 ∨ sz = 8 :=
  (by decide : ∀ p ∈ appSizes, p.2 = 0 ∨ p.2 = 8) _ (mem_of_lookup h)

lemma umax_toNat (a b : BitVec 32) : (umax a b).toNat = max a.toNat b.toNat := by
  unfold umax
  split_ifs with h
  · rw [Nat.max_eq_right (Nat.le_of_lt h)]
  · rw [Nat.max_eq_left (Nat.le_of_not_lt h)]

lemma foldl_umax_toNat (as : List (BitVec 32)) (a : BitVec 32) :
    (as.foldl umax a).toNat = (as.map BitVec.toNat).foldl max a.toNat := by
  induction as generalizing a with
  | nil => rfl
  | cons b as ih => rw [List.foldl_cons, ih, umax_toNat, List.map_cons, List.foldl_cons]

/-- The payload of a variant starts behind its tag unless a member is aligned to eight bytes. -/
lemma payloadOffset_cases {as : List (BitVec 32)} (h : ∀ a ∈ as, a.toNat ∣ 8) :
    as.foldl (fun o a => umax o (align 4 a)) 4 = 4 ∨ 8 ∈ as.map BitVec.toNat := by
  induction as with
  | nil => exact .inl rfl
  | cons a as ih =>
    have hdvd := h a List.mem_cons_self
    rcases ih fun b hb => h b (List.mem_cons_of_mem a hb) with hfour | height
    · have hcases : a = 1 ∨ a = 2 ∨ a = 4 ∨ a.toNat = 8 := by
        have hlt := Nat.lt_succ_of_le (Nat.le_of_dvd (by decide) hdvd)
        simp only [← BitVec.toNat_inj]
        exact (by decide : ∀ x < 9, x ∣ 8 → x = 1 ∨ x = 2 ∨ x = 4 ∨ x = 8) _ hlt hdvd
      rcases hcases with rfl | rfl | rfl | ha
      · exact .inl hfour
      · exact .inl hfour
      · exact .inl hfour
      · exact .inr (List.mem_map.mpr ⟨a, List.mem_cons_self, ha⟩)
    · rw [List.map_cons]
      exact .inr (List.mem_cons_of_mem _ height)

lemma naturalAlignment_dvd {n : ℕ} {t : MonoType} {b : ℕ} (h : naturalAlignment n t = some b) :
    b ∣ 8 := by
  induction n generalizing t b with
  | zero => cases h
  | succ n ih =>
    have hmembers : ∀ {μ : Type} {f : μ → MonoType} {ms : List μ} {bs : List ℕ},
        ms.mapM (fun m => naturalAlignment n (f m)) = some bs → ∀ b ∈ bs, b ∣ 8 := by
      intro μ f ms bs hms
      exact forall_of_mapM hms fun m b hb => ih hb
    cases t with
    | prim nm r =>
      cases r with
      | none =>
        obtain ⟨sz, hsz, rfl⟩ := Option.map_eq_some_iff.mp h
        obtain rfl | hdvd := primSize_dvd hsz
        · decide
        · split_ifs
          · decide
          · exact hdvd
      | some r =>
        simp only [naturalAlignment] at h
        split_ifs at h
        · exact Option.some.inj h ▸ by decide
        · exact ih h
    | fixedArray ty len => exact ih h
    | variant ms =>
      simp only [naturalAlignment, Option.bind_eq_bind, Option.bind_eq_some_iff] at h
      obtain ⟨bs, hbs, h⟩ := h
      obtain rfl := Option.some.inj h
      exact foldl_max_dvd (by decide) (hmembers hbs)
    | record ms =>
      simp only [naturalAlignment, Option.bind_eq_bind, Option.bind_eq_some_iff] at h
      obtain ⟨bs, hbs, h⟩ := h
      obtain rfl := Option.some.inj h
      exact foldl_max_dvd (by decide) (hmembers hbs)
    | tapp f targs =>
      simp only [naturalAlignment] at h
      split at h
      · split at h
        · split_ifs at h
          · exact Option.some.inj h ▸ by decide
          · exact Option.some.inj h ▸ by decide
        · simp only [Option.bind_eq_bind, Option.bind_eq_some_iff] at h
          obtain ⟨t, -, h⟩ := h
          exact ih h
        · cases h
      · cases h
    | opaquePtr nm sz scontig => exact Option.some.inj h ▸ by decide
    | array ty => exact Option.some.inj h ▸ by decide
    | func aty rty => exact Option.some.inj h ▸ by decide
    | existsType tname bty => exact Option.some.inj h ▸ by decide
    | recursive tname bty => exact Option.some.inj h ▸ by decide
    | tstring val => exact Option.some.inj h ▸ by decide
    | tlong x => exact Option.some.inj h ▸ by decide
    | tvar nm => cases h
    | tgen x => cases h
    | tabs targns b => cases h

/-- The compiler's alignment is never too strict. -/
lemma alignment_dvd {n : ℕ} {t : MonoType} {a : BitVec 32} (h : alignment n t = some a) :
    a.toNat ∣ 8 ∧ ∀ b, naturalAlignment n t = some b → a.toNat ≤ b := by
  induction n generalizing t a with
  | zero => cases h
  | succ n ih =>
    have hpos : ∀ {b : ℕ}, naturalAlignment (n + 1) t = some b → 1 ≤ b := fun hb =>
      Nat.pos_of_dvd_of_pos (naturalAlignment_dvd hb) (by decide)
    cases t with
    | prim nm r =>
      cases r with
      | none =>
        obtain ⟨sz, hsz, rfl⟩ := Option.map_eq_some_iff.mp h
        simp only [naturalAlignment, hsz, Option.map_some, Option.some.injEq, forall_eq']
        obtain rfl | hdvd := primSize_dvd hsz
        · exact ⟨by decide, by decide⟩
        · split_ifs
          · exact ⟨by decide, by decide⟩
          · exact ⟨hdvd, Nat.le_refl _⟩
      | some r =>
        simp only [alignment] at h
        simp only [naturalAlignment]
        split_ifs at h ⊢
        · obtain rfl := Option.some.inj h
          exact ⟨by decide, fun b hb => Option.some.inj hb ▸ by decide⟩
        · exact ih h
    | fixedArray ty len => exact ih h
    | variant ms =>
      simp only [alignment, Variant.payloadOffset, Option.bind_eq_bind, Option.bind_eq_some_iff] at h
      obtain ⟨o, ⟨as, has, ho⟩, h⟩ := h
      obtain rfl := Option.some.inj ho
      obtain rfl := Option.some.inj h
      have hdvd := forall_of_mapM has fun m a ha => (ih ha).1
      refine ⟨by split_ifs <;> decide, fun b hb => ?_⟩
      simp only [naturalAlignment, Option.bind_eq_bind, Option.bind_eq_some_iff] at hb
      obtain ⟨bs, hbs, hb⟩ := hb
      obtain rfl := Option.some.inj hb
      have hle : List.Forall₂ (· ≤ ·) (as.map BitVec.toNat) bs := List.forall₂_map_left_iff.mpr
        (forall₂_of_mapM has hbs fun m a b ha hb => (ih ha).2 b hb)
      rcases payloadOffset_cases hdvd with hfour | height
      · rw [if_pos hfour]
        exact le_foldl_max bs 4
      · have := Nat.le_trans (mem_le_foldl_max (a := 4) height) (foldl_max_le_foldl_max (Nat.le_refl 4) hle)
        split_ifs
        · exact le_foldl_max bs 4
        · exact this
    | record ms =>
      simp only [alignment, Record.maxFieldAlignment, Option.bind_eq_bind, Option.bind_eq_some_iff] at h
      obtain ⟨as, has, h⟩ := h
      obtain rfl := Option.some.inj h
      rw [foldl_umax_toNat]
      have hdvd := forall_of_mapM has fun m a ha => (ih ha).1
      refine ⟨foldl_max_dvd (by decide) (by simpa using hdvd), fun b hb => ?_⟩
      simp only [naturalAlignment, Option.bind_eq_bind, Option.bind_eq_some_iff] at hb
      obtain ⟨bs, hbs, hb⟩ := hb
      obtain rfl := Option.some.inj hb
      exact foldl_max_le_foldl_max (Nat.le_refl 1) (List.forall₂_map_left_iff.mpr
        (forall₂_of_mapM has hbs fun m a b ha hb => (ih ha).2 b hb))
    | tapp f targs =>
      simp only [alignment, Option.some.injEq] at h
      subst h
      refine ⟨by split_ifs <;> decide, fun b hb => ?_⟩
      split_ifs with href
      · cases f with
        | prim nm repr =>
          obtain rfl : nm = ascii "fileref" := by simpa [isFileRef] using href
          exact Nat.le_of_eq (Option.some.inj hb)
        | _ => cases href
      · exact hpos hb
    | opaquePtr nm sz scontig =>
      exact Option.some.inj h ▸ ⟨by decide, fun b hb => Option.some.inj hb ▸ by decide⟩
    | array ty => exact Option.some.inj h ▸ ⟨by decide, fun b hb => Option.some.inj hb ▸ by decide⟩
    | func aty rty =>
      exact Option.some.inj h ▸ ⟨by decide, fun b hb => Option.some.inj hb ▸ by decide⟩
    | existsType tname bty =>
      exact Option.some.inj h ▸ ⟨by decide, fun b hb => Option.some.inj hb ▸ by decide⟩
    | recursive tname bty =>
      exact Option.some.inj h ▸ ⟨by decide, fun b hb => Option.some.inj hb ▸ by decide⟩
    | tstring val => exact Option.some.inj h ▸ ⟨by decide, fun b hb => Option.some.inj hb ▸ by decide⟩
    | tlong x => exact Option.some.inj h ▸ ⟨by decide, fun b hb => Option.some.inj hb ▸ by decide⟩
    | tvar nm => exact Option.some.inj h ▸ ⟨by decide, fun b hb => by cases hb⟩
    | tgen x => exact Option.some.inj h ▸ ⟨by decide, fun b hb => by cases hb⟩
    | tabs targns b => exact Option.some.inj h ▸ ⟨by decide, fun b hb => by cases hb⟩

end Hobbes.Lang
