import Hobbes.Lang.TypeCodecRoundTrip
import Mathlib.Algebra.GroupWithZero.Nat

/-!
# Which types the codec takes back
-/

namespace Hobbes.Lang

open Core Core.Reader

/-! ### Size of codes -/

mutual

/-- The number of bytes that `encode` writes. -/
def MonoType.codeSize : MonoType → ℕ
  | .prim nm none => 4 + (8 + nm.length + 1)
  | .prim nm (some t) => 4 + (8 + nm.length + (1 + t.codeSize))
  | .opaquePtr nm _ _ => 4 + (8 + nm.length + (4 + 1))
  | .tvar nm => 4 + (8 + nm.length)
  | .tgen _ => 4 + 4
  | .fixedArray ty len => 4 + (ty.codeSize + len.codeSize)
  | .array ty => 4 + ty.codeSize
  | .variant ms => 4 + (8 + variantCodeSize ms)
  | .record ms => 4 + (8 + recordCodeSize ms)
  | .func aty rty => 4 + (aty.codeSize + rty.codeSize)
  | .existsType tname bty => 4 + (8 + tname.length + bty.codeSize)
  | .tstring val => 4 + (8 + val.length)
  | .tlong _ => 4 + 8
  | .tapp f targs => 4 + (f.codeSize + (8 + typesCodeSize targs))
  | .recursive tname bty => 4 + (8 + tname.length + bty.codeSize)
  | .tabs targns b => 4 + (8 + ((targns.map (8 + ·.length)).sum + b.codeSize))

def typesCodeSize : List MonoType → ℕ
  | [] => 0
  | t :: ts => t.codeSize + typesCodeSize ts

def variantCodeSize : List (Variant.Member MonoType) → ℕ
  | [] => 0
  | ⟨selector, t, _⟩ :: ms => 8 + selector.length + (4 + (t.codeSize + variantCodeSize ms))

def recordCodeSize : List (Record.Member MonoType) → ℕ
  | [] => 0
  | ⟨field, t, _⟩ :: ms => 8 + field.length + (4 + (t.codeSize + recordCodeSize ms))

end

@[simp] lemma encodeOpaquePtr_length (nm : Bytes) (sz : BitVec 32) (scontig : Bool) :
    (encodeOpaquePtr nm sz scontig).length = 4 + (8 + nm.length + (4 + 1)) := by
  simp [encodeOpaquePtr]

/-- What an array is normalised to has a code of the same size. -/
lemma elementCode_length (ty : MonoType) {code : Bytes} (h : code.length = ty.codeSize) :
    (elementCode ty code).length = ty.codeSize := by
  cases ty <;> simp [elementCode, h, MonoType.codeSize]

mutual

lemma encode_length : ∀ t, (encode t).length = t.codeSize
  | .prim _ none => by simp [encode, MonoType.codeSize]
  | .prim _ (some t) => by simp [encode, MonoType.codeSize, encode_length t]
  | .opaquePtr _ _ _ => by simp [encode, MonoType.codeSize]
  | .tvar _ => by simp [encode, MonoType.codeSize]
  | .tgen _ => by simp [encode, MonoType.codeSize]
  | .fixedArray ty len => by
    simp [encode, MonoType.codeSize, elementCode_length ty (encode_length ty), encode_length len]
  | .array ty => by simp [encode, MonoType.codeSize, elementCode_length ty (encode_length ty)]
  | .variant ms => by simp [encode, MonoType.codeSize, encodeVariant_length ms]
  | .record ms => by simp [encode, MonoType.codeSize, encodeRecord_length ms]
  | .func aty rty => by simp [encode, MonoType.codeSize, encode_length aty, encode_length rty]
  | .existsType _ bty => by simp [encode, MonoType.codeSize, encode_length bty]
  | .tstring _ => by simp [encode, MonoType.codeSize]
  | .tlong _ => by simp [encode, MonoType.codeSize]
  | .tapp f targs => by simp [encode, MonoType.codeSize, encode_length f, encodeTypes_length targs]
  | .recursive _ bty => by simp [encode, MonoType.codeSize, encode_length bty]
  | .tabs _ b => by simp [encode, MonoType.codeSize, encode_length b]

lemma encodeTypes_length : ∀ ts, (encodeTypes ts).length = typesCodeSize ts
  | [] => rfl
  | t :: ts => by simp [encodeTypes, typesCodeSize, encode_length t, encodeTypes_length ts]

lemma encodeVariant_length : ∀ ms, (encodeVariant ms).length = variantCodeSize ms
  | [] => rfl
  | ⟨_, t, _⟩ :: ms => by
    simp [encodeVariant, variantCodeSize, encode_length t, encodeVariant_length ms]

lemma encodeRecord_length : ∀ ms, (encodeRecord ms).length = recordCodeSize ms
  | [] => rfl
  | ⟨_, t, _⟩ :: ms => by
    simp [encodeRecord, recordCodeSize, encode_length t, encodeRecord_length ms]

end

/-! ### What is decoded -/

/-- What can be read where `t` was written. -/
structure MonoType.Reread (t t' : MonoType) : Prop where
  known : t.Forall MonoType.Known
  plain : t'.Forall MonoType.Plain
  norm : normIfOpaquePtr t = t → normIfOpaquePtr t' = t'

section

variable {L : Layout} {fuel : ℕ} {bs : Bytes} {t t' ty : MonoType} {r : Read MonoType}
  {Q : MonoType → Prop}

lemma readsOnly_case (c : BitVec 32)
    (h : ∀ fuel, ReadsOnly (decodeCase L (decodeFrom L fuel) c.toNat) bs Q) :
    ReadsOnly (decodeFrom L fuel) (writeInt c ++ bs) Q := by
  cases fuel with
  | zero => exact ReadsOnly.fail
  | succ fuel =>
    apply (reads_int c).readsOnly.bind
    rintro _ rfl
    exact h fuel

lemma readsOnly_string (s : Bytes) : ReadsOnly readString (writeString s) (· = s) :=
  (reads_string s).readsOnly

/-- An array is read with an element type that it is normalised to. -/
lemma readsOnly_element
    (h : ∀ fuel, ReadsOnly (decodeFrom L fuel) (encode ty) (MonoType.Reread ty)) :
    ReadsOnly (decodeFrom L fuel) (encode (normIfOpaquePtr ty)) fun ty' =>
      ty.Forall MonoType.Known ∧ ty'.Forall MonoType.Plain ∧ normIfOpaquePtr ty' = ty' := by
  by_cases hty : normIfOpaquePtr ty = ty
  · rw [hty]
    exact (h fuel).mono fun ty' hty' => ⟨hty'.known, hty'.plain, hty'.norm hty⟩
  · cases ty with
    | opaquePtr nm sz scontig =>
      cases fuel with
      | zero => exact ReadsOnly.fail
      | succ fuel =>
        apply (reads_opaquePtr L fuel nm 0 false).readsOnly.mono
        rintro _ rfl
        exact ⟨trivial, trivial, rfl⟩
    | _ => exact (hty rfl).elim

lemma forall_of_reread {α : Type} {type : α → MonoType} {xs xs' : List α}
    (h : List.Forall₂ (fun x x' => MonoType.Reread (type x) (type x')) xs xs') :
    (∀ x ∈ xs, (type x).Forall MonoType.Known) ∧ ∀ x' ∈ xs', (type x').Forall MonoType.Plain := by
  induction h with
  | nil => simp
  | cons hx _ ih =>
    exact ⟨List.forall_mem_cons.mpr ⟨hx.known, ih.1⟩, List.forall_mem_cons.mpr ⟨hx.plain, ih.2⟩⟩

lemma readsOnly_variantMember {m : Variant.Member MonoType}
    (h : ReadsOnly r (encode m.type) (MonoType.Reread m.type)) :
    ReadsOnly (decodeVariantMember r) (encodeVariantMember m) fun m' =>
      MonoType.Reread m.type m'.type := by
  apply (readsOnly_string m.selector).bind
  rintro _ rfl
  apply (reads_int m.id).readsOnly.bind
  rintro _ rfl
  exact h.map fun _ h' => h'

lemma readsOnly_recordMember {m : Record.Member MonoType}
    (h : ReadsOnly r (encode m.type) (MonoType.Reread m.type)) :
    ReadsOnly (decodeRecordMember r) (encodeRecordMember m) fun m' =>
      MonoType.Reread m.type m'.type := by
  apply (readsOnly_string m.field).bind
  rintro _ rfl
  apply (reads_int m.offset).readsOnly.bind
  rintro _ rfl
  exact h.map fun _ h' => h'

/-- Whatever is decoded from a code, the encoded type has no type abstraction in it and the decoded
one no array of a contiguous opaque pointer. -/
lemma readsOnly_decodeFrom (t : MonoType) :
    ReadsOnly (decodeFrom L fuel) (encode t) (MonoType.Reread t) := by
  induction t generalizing fuel with
  | prim nm t ih =>
    cases t with
    | none =>
      rw [encode, List.append_assoc]
      apply readsOnly_case
      intro fuel
      apply (readsOnly_string nm).bind
      rintro _ rfl
      apply (reads_bool false).readsOnly.bind
      rintro _ rfl
      exact ReadsOnly.pure ⟨trivial, trivial, fun _ => rfl⟩
    | some t =>
      rw [encode, List.append_assoc, List.append_assoc]
      apply readsOnly_case
      intro fuel
      apply (readsOnly_string nm).bind
      rintro _ rfl
      apply (reads_bool true).readsOnly.bind
      rintro _ rfl
      exact (ih t rfl).map fun t' h => ⟨⟨trivial, h.known⟩, ⟨trivial, h.plain⟩, fun _ => rfl⟩
  | opaquePtr nm sz scontig =>
    cases fuel with
    | zero => exact ReadsOnly.fail
    | succ fuel =>
      apply (reads_opaquePtr L fuel nm sz scontig).readsOnly.mono
      rintro _ rfl
      refine ⟨trivial, trivial, fun h => ?_⟩
      obtain rfl : false = scontig := (MonoType.opaquePtr.inj h).2.2
      rfl
  | tvar nm =>
    apply readsOnly_case
    intro fuel
    exact (readsOnly_string nm).map fun _ _ => ⟨trivial, trivial, fun _ => rfl⟩
  | tgen x =>
    apply readsOnly_case
    intro fuel
    exact (reads_int x).readsOnly.map fun _ _ => ⟨trivial, trivial, fun _ => rfl⟩
  | tabs targns b ih =>
    -- the switch has no case for it
    rw [encode, List.append_assoc]
    apply readsOnly_case
    intro fuel
    exact ReadsOnly.fail
  | tapp f targs ihf ih =>
    rw [encode, encodeTypes_eq, List.append_assoc]
    apply readsOnly_case
    intro fuel
    apply ihf.bind
    intro f' hf'
    refine (readsOnly_vector (fun t _ => ?_) fun t ht => ih t ht).map fun targs' h => ?_
    · exact Nat.lt_of_lt_of_le (by decide) (encode_length_pos t)
    obtain ⟨hk, hp⟩ := forall_of_reread h
    exact ⟨⟨trivial, hf'.known, forallTypes_iff.mpr hk⟩,
      ⟨trivial, hf'.plain, forallTypes_iff.mpr hp⟩, fun _ => rfl⟩
  | fixedArray ty len ihty ihlen =>
    rw [encode_fixedArray, List.append_assoc]
    apply readsOnly_case
    intro fuel
    apply (readsOnly_element fun fuel => ihty).bind
    rintro ty' ⟨hk, hp, hnorm⟩
    exact ihlen.map fun len' h =>
      ⟨⟨trivial, hk, h.known⟩, ⟨hnorm, hp, h.plain⟩, fun _ => rfl⟩
  | array ty ih =>
    rw [encode_array]
    apply readsOnly_case
    intro fuel
    refine (readsOnly_element fun fuel => ih).map fun ty' h => ?_
    obtain ⟨hk, hp, hnorm⟩ := h
    exact ⟨⟨trivial, hk⟩, ⟨hnorm, hp⟩, fun _ => rfl⟩
  | variant ms ih =>
    rw [encode, encodeVariant_eq]
    apply readsOnly_case
    intro fuel
    refine (readsOnly_vector (fun m _ => encodeVariantMember_length_pos m) fun m hm =>
      readsOnly_variantMember (ih m hm)).map fun ms' h => ?_
    obtain ⟨hk, hp⟩ := forall_of_reread h
    exact ⟨⟨trivial, forallVariant_iff.mpr hk⟩, ⟨trivial, forallVariant_iff.mpr hp⟩, fun _ => rfl⟩
  | record ms ih =>
    rw [encode, encodeRecord_eq, ← List.append_nil (_ ++ List.flatMap _ _)]
    apply readsOnly_case
    intro fuel
    apply (readsOnly_vector (fun m _ => encodeRecordMember_length_pos m) fun m hm =>
      readsOnly_recordMember (ih m hm)).bind
    intro ms' h
    obtain ⟨hk, hp⟩ := forall_of_reread h
    apply ReadsOnly.ofOption
    intro t' ht'
    obtain ⟨ms'', rfl, -, htypes⟩ := Record.make_eq_some ht'
    refine ⟨⟨trivial, forallRecord_iff.mpr hk⟩, ⟨trivial, ?_⟩, fun _ => rfl⟩
    have hp' : ∀ t ∈ ms''.map Record.Member.type, t.Forall MonoType.Plain :=
      htypes ▸ List.forall_mem_map.mpr hp
    exact forallRecord_iff.mpr (List.forall_mem_map.mp hp')
  | func aty rty iha ihr =>
    rw [encode, List.append_assoc]
    apply readsOnly_case
    intro fuel
    apply iha.bind
    intro aty' ha
    exact ihr.map fun rty' hr =>
      ⟨⟨trivial, ha.known, hr.known⟩, ⟨trivial, ha.plain, hr.plain⟩, fun _ => rfl⟩
  | existsType tname bty ih =>
    rw [encode, List.append_assoc]
    apply readsOnly_case
    intro fuel
    apply (readsOnly_string tname).bind
    rintro _ rfl
    exact ih.map fun t' h => ⟨⟨trivial, h.known⟩, ⟨trivial, h.plain⟩, fun _ => rfl⟩
  | recursive tname bty ih =>
    rw [encode, List.append_assoc]
    apply readsOnly_case
    intro fuel
    apply (readsOnly_string tname).bind
    rintro _ rfl
    exact ih.map fun t' h => ⟨⟨trivial, h.known⟩, ⟨trivial, h.plain⟩, fun _ => rfl⟩
  | tstring val =>
    apply readsOnly_case
    intro fuel
    exact (readsOnly_string val).map fun _ _ => ⟨trivial, trivial, fun _ => rfl⟩
  | tlong x =>
    apply readsOnly_case
    intro fuel
    exact (reads_long x).readsOnly.map fun _ _ => ⟨trivial, trivial, fun _ => rfl⟩

/-! ### The round trip -/

/-- A type is taken back, and no more than its code is read, exactly if there is no type
abstraction in it, no array was made of a contiguous opaque pointer, and the code is short enough
for a position of type `unsigned int`. -/
theorem decode_encode_iff (ht : t.Made L) :
    (∃ n, decode L (encode t) = some (t, n) ∧ n.val = (encode t).length) ↔
      t.Forall MonoType.Known ∧ t.Forall MonoType.Plain ∧ t.codeSize < 2 ^ 32 := by
  rw [← encode_length]
  constructor
  · rintro ⟨n, hdecode, hn⟩
    have hlt : (encode t).length < 2 ^ 32 := hn ▸ n.isLt
    have hread : ReadsOnly (decodeFrom L (encode t).length) (encode t) (MonoType.Reread t) :=
      readsOnly_decodeFrom t
    obtain ⟨-, hreread⟩ := hread [] [] 0 n t rfl (by simpa using hlt) (by simpa [decode] using hdecode)
    exact ⟨hreread.known, hreread.plain, hlt⟩
  · rintro ⟨hk, hp, hlt⟩
    refine ⟨⟨(encode t).length, hlt⟩, ?_, rfl⟩
    have hread := reads_decodeFrom ht hk hp (Nat.le_refl _) [] [] 0 ⟨(encode t).length, hlt⟩ rfl (by simp)
    simpa [decode] using hread

/-- The record `{x : int}`, with the layout resolved when it was made. -/
theorem decode_encode_record :
    ∃ n, decode ⟨fun _ => some 4, fun _ => some 4⟩ (encode (.record [⟨[120], .prim [105] none, 0⟩])) =
        some (.record [⟨[120], .prim [105] none, 0⟩], n) ∧
      n.val = (encode (.record [⟨[120], .prim [105] none, 0⟩])).length := by
  have hms : ∀ m ∈ [(⟨[120], .prim [105] none, -1⟩ : Record.Member MonoType)],
      MonoType.Made ⟨fun _ => some 4, fun _ => some 4⟩ m.type := by
    intro m hm
    rw [List.mem_singleton.mp hm]
    exact .prim (by simp)
  exact (decode_encode_iff (.record hms rfl)).mpr
    ⟨⟨trivial, trivial, trivial⟩, ⟨trivial, trivial, trivial⟩, by decide⟩

/-- A primitive type whose representation is a type abstraction cannot be decoded. -/
theorem decode_encode_prim_tabs :
    MonoType.Made ⟨fun _ => some 4, fun _ => some 4⟩ (.prim [97] (some (.tabs [[98]] (.tvar [98])))) ∧
      decode ⟨fun _ => some 4, fun _ => some 4⟩
        (encode (.prim [97] (some (.tabs [[98]] (.tvar [98]))))) = none := by
  refine ⟨.prim fun r hr => ?_, rfl⟩
  cases hr
  exact .tabs (.tvar _)

end

end Hobbes.Lang
