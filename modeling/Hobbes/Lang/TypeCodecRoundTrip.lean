import Hobbes.Lang.TypeCodec

/-!
# Decoding what was encoded
-/

namespace Hobbes.Lang

open Core Core.Reader

/-! ### Plain values -/

section

variable {α β : Type}

lemma reads_bool (b : Bool) : Reads readBool (writeBool b) b := by
  cases b
  · exact (Reads.number (k := 1) (n := 0) (by decide)).map (· != 0)
  · exact (Reads.number (k := 1) (n := 1) (by decide)).map (· != 0)

lemma reads_int (x : BitVec 32) : Reads readInt (writeInt x) x := by
  have h := (Reads.number (m := 2 ^ 32) (k := 4) x.isLt).map fun n => BitVec.ofNat 32 n
  rwa [BitVec.ofNat_toNat, BitVec.setWidth_eq] at h

lemma reads_long (x : BitVec 64) : Reads readLong (writeLong x) x := by
  have h := (Reads.number (m := 2 ^ 32) (k := 8) x.isLt).map fun n => BitVec.ofNat 64 n
  rwa [BitVec.ofNat_toNat, BitVec.setWidth_eq] at h

lemma reads_size {n : ℕ} (hn : n < 2 ^ 64) : Reads readSize (writeSize n) n :=
  Reads.number (k := 8) hn

/-- The length in front of a string is right, since the whole string has to fit below `2 ^ 32`. -/
lemma reads_string (s : Bytes) : Reads readString (writeString s) s := by
  apply Reads.of_lt
  intro hlt
  rw [writeString, List.length_append] at hlt
  exact Reads.counted (k := 8) (by omega)

/-- Values that each take a byte are not more than the bytes they take. -/
lemma length_le_flatMap {f : β → Bytes} {xs : List β} (hf : ∀ x ∈ xs, 0 < (f x).length) :
    xs.length ≤ (xs.flatMap f).length := by
  induction xs with
  | nil => simp
  | cons x xs ih =>
    have hx := hf x List.mem_cons_self
    have hxs := ih fun y hy => hf y (List.mem_cons_of_mem _ hy)
    rw [List.flatMap_cons, List.length_append, List.length_cons]
    omega

variable {r : Read α} {f : β → Bytes} {g : β → α} {R : β → α → Prop} {xs : List β}

lemma reads_vector (hf : ∀ x ∈ xs, 0 < (f x).length) (h : ∀ x ∈ xs, Reads r (f x) (g x)) :
    Reads (readVector r) (writeSize xs.length ++ xs.flatMap f) (xs.map g) := by
  apply Reads.of_lt
  intro hlt
  have hle := length_le_flatMap hf
  rw [List.length_append] at hlt
  exact (reads_size (by omega)).bind (Reads.replicate h)

lemma readsOnly_vector (hf : ∀ x ∈ xs, 0 < (f x).length)
    (h : ∀ x ∈ xs, ReadsOnly r (f x) (R x)) :
    ReadsOnly (readVector r) (writeSize xs.length ++ xs.flatMap f) (List.Forall₂ R xs) := by
  apply ReadsOnly.of_lt
  intro hlt
  have hle := length_le_flatMap hf
  rw [List.length_append] at hlt
  refine (reads_size (by omega)).readsOnly.bind ?_
  rintro _ rfl
  exact ReadsOnly.replicate h

end

/-! ### Codes -/

def encodeVariantMember (m : Variant.Member MonoType) : Bytes :=
  writeString m.selector ++ (writeInt m.id ++ encode m.type)

def encodeRecordMember (m : Record.Member MonoType) : Bytes :=
  writeString m.field ++ (writeInt m.offset ++ encode m.type)

lemma encodeTypes_eq (ts : List MonoType) : encodeTypes ts = ts.flatMap encode := by
  induction ts with
  | nil => rfl
  | cons t ts ih => rw [encodeTypes, ih, List.flatMap_cons]

lemma encodeVariant_eq (ms : List (Variant.Member MonoType)) :
    encodeVariant ms = ms.flatMap encodeVariantMember := by
  induction ms with
  | nil => rfl
  | cons m ms ih =>
    rw [encodeVariant, ih, List.flatMap_cons, encodeVariantMember]
    simp only [List.append_assoc]

lemma encodeRecord_eq (ms : List (Record.Member MonoType)) :
    encodeRecord ms = ms.flatMap encodeRecordMember := by
  induction ms with
  | nil => rfl
  | cons m ms ih =>
    rw [encodeRecord, ih, List.flatMap_cons, encodeRecordMember]
    simp only [List.append_assoc]

lemma elementCode_encode (ty : MonoType) : elementCode ty (encode ty) = encode (normIfOpaquePtr ty) := by
  cases ty <;> simp [elementCode, normIfOpaquePtr, OpaquePtr.make, encode]

/-- The visitor writes the element type that `type()` returns. -/
lemma encode_array (ty : MonoType) :
    encode (.array ty) = writeInt 5 ++ encode (normIfOpaquePtr ty) := by
  rw [encode, elementCode_encode]

lemma encode_fixedArray (ty len : MonoType) :
    encode (.fixedArray ty len) = writeInt 4 ++ encode (normIfOpaquePtr ty) ++ encode len := by
  rw [encode, elementCode_encode]

@[simp] lemma writeBool_length (b : Bool) : (writeBool b).length = 1 := rfl

@[simp] lemma writeInt_length (x : BitVec 32) : (writeInt x).length = 4 := leBytes_length ..

@[simp] lemma writeLong_length (x : BitVec 64) : (writeLong x).length = 8 := leBytes_length ..

@[simp] lemma writeSize_length (n : ℕ) : (writeSize n).length = 8 := leBytes_length ..

@[simp] lemma writeString_length (s : Bytes) : (writeString s).length = 8 + s.length := by
  rw [writeString, List.length_append, writeSize_length]

lemma encode_length_pos (t : MonoType) : 4 ≤ (encode t).length := by
  cases t with
  | prim nm t => cases t <;> simp [encode]
  | _ => simp [encode, encodeOpaquePtr]

lemma encodeVariantMember_length_pos (m : Variant.Member MonoType) :
    0 < (encodeVariantMember m).length := by
  simp only [encodeVariantMember, List.length_append, writeString_length]
  omega

lemma encode_length_le_variantMember (m : Variant.Member MonoType) :
    (encode m.type).length ≤ (encodeVariantMember m).length := by
  simp only [encodeVariantMember, List.length_append]
  omega

lemma encodeRecordMember_length_pos (m : Record.Member MonoType) :
    0 < (encodeRecordMember m).length := by
  simp only [encodeRecordMember, List.length_append, writeString_length]
  omega

lemma encode_length_le_recordMember (m : Record.Member MonoType) :
    (encode m.type).length ≤ (encodeRecordMember m).length := by
  simp only [encodeRecordMember, List.length_append]
  omega

/-! ### What the codec can take back -/

mutual

/-- `p` holds of a type and of all types in it. -/
def MonoType.Forall (p : MonoType → Prop) : MonoType → Prop
  | .prim nm none => p (.prim nm none)
  | .prim nm (some t) => p (.prim nm (some t)) ∧ t.Forall p
  | .opaquePtr nm sz scontig => p (.opaquePtr nm sz scontig)
  | .tvar nm => p (.tvar nm)
  | .tgen x => p (.tgen x)
  | .tabs targns b => p (.tabs targns b) ∧ b.Forall p
  | .tapp f targs => p (.tapp f targs) ∧ f.Forall p ∧ forallTypes p targs
  | .fixedArray ty len => p (.fixedArray ty len) ∧ ty.Forall p ∧ len.Forall p
  | .array ty => p (.array ty) ∧ ty.Forall p
  | .variant ms => p (.variant ms) ∧ forallVariant p ms
  | .record ms => p (.record ms) ∧ forallRecord p ms
  | .func aty rty => p (.func aty rty) ∧ aty.Forall p ∧ rty.Forall p
  | .existsType tname bty => p (.existsType tname bty) ∧ bty.Forall p
  | .recursive tname bty => p (.recursive tname bty) ∧ bty.Forall p
  | .tstring val => p (.tstring val)
  | .tlong x => p (.tlong x)

def forallTypes (p : MonoType → Prop) : List MonoType → Prop
  | [] => True
  | t :: ts => t.Forall p ∧ forallTypes p ts

def forallVariant (p : MonoType → Prop) : List (Variant.Member MonoType) → Prop
  | [] => True
  | ⟨_, t, _⟩ :: ms => t.Forall p ∧ forallVariant p ms

def forallRecord (p : MonoType → Prop) : List (Record.Member MonoType) → Prop
  | [] => True
  | ⟨_, t, _⟩ :: ms => t.Forall p ∧ forallRecord p ms

end

/-- The decoder has a case for the constructor. -/
def MonoType.Known : MonoType → Prop
  | .tabs _ _ => False
  | _ => True

/-- An array was not made of an opaque pointer type that is stored contiguously. -/
def MonoType.Plain : MonoType → Prop
  | .fixedArray ty _ | .array ty => normIfOpaquePtr ty = ty
  | _ => True

section

variable {p : MonoType → Prop}

@[simp] lemma forallTypes_iff {ts : List MonoType} :
    forallTypes p ts ↔ ∀ t ∈ ts, t.Forall p := by
  induction ts with
  | nil => simp [forallTypes]
  | cons t ts ih => simp [forallTypes, ih]

@[simp] lemma forallVariant_iff {ms : List (Variant.Member MonoType)} :
    forallVariant p ms ↔ ∀ m ∈ ms, m.type.Forall p := by
  induction ms with
  | nil => simp [forallVariant]
  | cons m ms ih => simp [forallVariant, ih]

@[simp] lemma forallRecord_iff {ms : List (Record.Member MonoType)} :
    forallRecord p ms ↔ ∀ m ∈ ms, m.type.Forall p := by
  induction ms with
  | nil => simp [forallRecord]
  | cons m ms ih => simp [forallRecord, ih]

end

/-! ### Types are taken back -/

lemma length_le_flatMap_of_mem {α : Type} {f : α → Bytes} {xs : List α} {x : α} (h : x ∈ xs) :
    (f x).length ≤ (xs.flatMap f).length := by
  obtain ⟨l, r, rfl⟩ := List.append_of_mem h
  simp only [List.flatMap_append, List.flatMap_cons, List.length_append]
  omega

lemma OpaquePtr.make_idem (nm : Bytes) (sz : BitVec 32) (scontig : Bool) :
    OpaquePtr.make nm (if scontig then sz else 0) scontig = OpaquePtr.make nm sz scontig := by
  cases scontig <;> rfl

section

variable {L : Layout} {fuel : ℕ} {bs : Bytes} {t ty : MonoType} {r : Read MonoType}

lemma exists_fuel (h : (encode t).length ≤ fuel) : ∃ k, fuel = k + 1 := by
  have hpos := encode_length_pos t
  exact ⟨fuel - 1, by omega⟩

lemma reads_case (c : BitVec 32) (h : Reads (decodeCase L (decodeFrom L fuel) c.toNat) bs t) :
    Reads (decodeFrom L (fuel + 1)) (writeInt c ++ bs) t :=
  (reads_int c).bind h

lemma reads_opaquePtr (L : Layout) (fuel : ℕ) (nm : Bytes) (sz : BitVec 32) (scontig : Bool) :
    Reads (decodeFrom L (fuel + 1)) (encodeOpaquePtr nm sz scontig)
      (OpaquePtr.make nm sz scontig) := by
  rw [encodeOpaquePtr, List.append_assoc, List.append_assoc]
  apply reads_case
  apply Reads.bind (reads_string nm)
  apply Reads.bind (reads_int sz)
  exact (reads_bool scontig).map _

lemma reads_variantMember {m : Variant.Member MonoType} (h : Reads r (encode m.type) m.type) :
    Reads (decodeVariantMember r) (encodeVariantMember m) m := by
  apply Reads.bind (reads_string m.selector)
  apply Reads.bind (reads_int m.id)
  exact h.map _

lemma reads_recordMember {m : Record.Member MonoType} (h : Reads r (encode m.type) m.type) :
    Reads (decodeRecordMember r) (encodeRecordMember m) m := by
  apply Reads.bind (reads_string m.field)
  apply Reads.bind (reads_int m.offset)
  exact h.map _

/-- A vector whose members are read as they are. -/
lemma reads_members {α : Type} {r : Read α} {f : α → Bytes} {xs : List α}
    (hf : ∀ x ∈ xs, 0 < (f x).length) (h : ∀ x ∈ xs, Reads r (f x) x) :
    Reads (readVector r) (writeSize xs.length ++ xs.flatMap f) xs := by
  have := reads_vector (g := id) hf h
  rwa [List.map_id] at this

/-- The types that the codec takes back, given enough fuel. -/
lemma reads_decodeFrom (ht : t.Made L) (hk : t.Forall MonoType.Known)
    (hp : t.Forall MonoType.Plain) (hf : (encode t).length ≤ fuel) :
    Reads (decodeFrom L fuel) (encode t) t := by
  induction ht generalizing fuel with
  | @prim nm t h ih =>
    obtain ⟨fuel, rfl⟩ := exists_fuel hf
    cases t with
    | none =>
      rw [encode, List.append_assoc]
      apply reads_case
      apply Reads.bind (reads_string nm)
      exact (reads_bool false).bind (Reads.pure _)
    | some r =>
      simp only [encode, List.append_assoc, List.length_append, writeInt_length] at hf ⊢
      apply reads_case
      apply Reads.bind (reads_string nm)
      apply Reads.bind (reads_bool true)
      exact (ih r rfl hk.2 hp.2 (by omega)).map _
  | opaquePtr nm sz scontig =>
    obtain ⟨fuel, rfl⟩ := exists_fuel hf
    have h := reads_opaquePtr L fuel nm (if scontig then sz else 0) scontig
    rwa [OpaquePtr.make_idem] at h
  | tvar nm =>
    obtain ⟨fuel, rfl⟩ := exists_fuel hf
    apply reads_case
    exact (reads_string nm).map _
  | tgen x =>
    obtain ⟨fuel, rfl⟩ := exists_fuel hf
    apply reads_case
    exact (reads_int x).map _
  | tabs h ih => exact hk.1.elim
  | @tapp f targs hfn h ihf ih =>
    obtain ⟨fuel, rfl⟩ := exists_fuel hf
    simp only [encode, encodeTypes_eq, List.append_assoc, List.length_append,
      writeInt_length] at hf ⊢
    apply reads_case
    apply Reads.bind (ihf hk.2.1 hp.2.1 (by omega))
    refine (reads_members (fun t _ => ?_) fun t ht => ?_).map _
    · exact Nat.lt_of_lt_of_le (by decide) (encode_length_pos t)
    · have hle := length_le_flatMap_of_mem (f := encode) ht
      exact ih t ht (forallTypes_iff.mp hk.2.2 t ht) (forallTypes_iff.mp hp.2.2 t ht) (by omega)
  | @fixedArray ty len hty hlen ihty ihlen =>
    obtain ⟨fuel, rfl⟩ := exists_fuel hf
    rw [encode_fixedArray, hp.1, List.append_assoc] at hf ⊢
    simp only [List.length_append, writeInt_length] at hf
    apply reads_case
    apply Reads.bind (ihty hk.2.1 hp.2.1 (by omega))
    exact (ihlen hk.2.2 hp.2.2 (by omega)).map _
  | @array ty h ih =>
    obtain ⟨fuel, rfl⟩ := exists_fuel hf
    rw [encode_array, hp.1] at hf ⊢
    simp only [List.length_append, writeInt_length] at hf
    apply reads_case
    exact (ih hk.2 hp.2 (by omega)).map _
  | @variant ms h ih =>
    obtain ⟨fuel, rfl⟩ := exists_fuel hf
    simp only [encode, encodeVariant_eq, List.length_append, writeInt_length] at hf ⊢
    apply reads_case
    refine (reads_members (fun m _ => encodeVariantMember_length_pos m) fun m hm => ?_).map _
    have hle := length_le_flatMap_of_mem (f := encodeVariantMember) hm
    have hm' := encode_length_le_variantMember m
    exact reads_variantMember
      (ih m hm (forallVariant_iff.mp hk.2 m hm) (forallVariant_iff.mp hp.2 m hm) (by omega))
  | @record ms t h ht ih =>
    obtain ⟨fuel, rfl⟩ := exists_fuel hf
    obtain ⟨ms', rfl, hmake, htypes⟩ := Record.make_eq_some ht
    simp only [encode, encodeRecord_eq, List.length_append, writeInt_length] at hf ⊢
    apply reads_case
    have hms : Reads (readVector (decodeRecordMember (decodeFrom L fuel)))
        (writeSize ms'.length ++ ms'.flatMap encodeRecordMember) ms' := by
      refine reads_members (fun m _ => encodeRecordMember_length_pos m) fun m hm => ?_
      -- the member's type is that of a member before the layout was resolved
      obtain ⟨m₀, hm₀, htype⟩ : ∃ m₀ ∈ ms, m₀.type = m.type := by
        have : m.type ∈ ms.map Record.Member.type := htypes ▸ List.mem_map_of_mem hm
        simpa using this
      have hle := length_le_flatMap_of_mem (f := encodeRecordMember) hm
      have hm' := encode_length_le_recordMember m
      apply reads_recordMember
      rw [← htype] at hm' ⊢
      apply ih m₀ hm₀ _ _ (by omega) <;> rw [htype]
      · exact forallRecord_iff.mp hk.2 m hm
      · exact forallRecord_iff.mp hp.2 m hm
    have := hms.bind (k := fun ms => Reader.ofOption (Record.make L ms)) (Reads.ofOption hmake)
    rwa [List.append_nil] at this
  | @func aty rty haty hrty iha ihr =>
    obtain ⟨fuel, rfl⟩ := exists_fuel hf
    simp only [encode, List.append_assoc, List.length_append, writeInt_length] at hf ⊢
    apply reads_case
    apply Reads.bind (iha hk.2.1 hp.2.1 (by omega))
    exact (ihr hk.2.2 hp.2.2 (by omega)).map _
  | @existsType tname bty h ih =>
    obtain ⟨fuel, rfl⟩ := exists_fuel hf
    simp only [encode, List.append_assoc, List.length_append, writeInt_length] at hf ⊢
    apply reads_case
    apply Reads.bind (reads_string tname)
    exact (ih hk.2 hp.2 (by omega)).map _
  | @recursive tname bty h ih =>
    obtain ⟨fuel, rfl⟩ := exists_fuel hf
    simp only [encode, List.append_assoc, List.length_append, writeInt_length] at hf ⊢
    apply reads_case
    apply Reads.bind (reads_string tname)
    exact (ih hk.2 hp.2 (by omega)).map _
  | tstring val =>
    obtain ⟨fuel, rfl⟩ := exists_fuel hf
    apply reads_case
    exact (reads_string val).map _
  | tlong x =>
    obtain ⟨fuel, rfl⟩ := exists_fuel hf
    apply reads_case
    exact (reads_long x).map _

end

end Hobbes.Lang
