import Hobbes.Lang.ExprCodec
import Hobbes.Lang.TypeCodecRoundTrip

/-!
# Decoding the expressions that were encoded
-/

namespace Hobbes.Lang

open Core Core.Stream

/-! ### Expressions as they are built -/

/-- A string or a vector has a length of type `size_t`. -/
def Sized {α : Type} (xs : List α) : Prop := xs.length < 2 ^ 64

/-- The node is as its constructor leaves it. -/
def Desc.Made : Desc Expr → Prop
  | .var id => Sized id
  | .letIn id _ _ => Sized id
  | .letRec bs _ => Sized bs ∧ ∀ b ∈ bs, Sized b.1
  | .fn vs e => (Sized vs ∧ ∀ v ∈ vs, Sized v) ∧ Fn.make vs e = .fn vs e
  | .app fne argl => Sized argl ∧ App.make fne argl = .app fne argl
  | .mkArray es => Sized es
  | .mkVariant lbl _ => Sized lbl
  | .mkRecord fs => Sized fs ∧ ∀ f ∈ fs, Sized f.1
  | .case _ bs _ => Sized bs ∧ ∀ b ∈ bs, Sized b.selector ∧ Sized b.vname
  | .switch v bs dflt => Sized bs ∧ Switch.make v bs dflt = some (.switch v bs dflt)
  | .proj _ field => Sized field
  | .unpack vn _ _ => Sized vn
  | .prim _ | .assign _ _ | .aindex _ _ | .assump _ _ | .pack _ => True

/-- The types in a node. -/
def Desc.types {ε : Type} : Desc ε → List QualType
  | .switch _ bs _ => bs.filterMap Switch.Binding.valueType
  | .assump _ t => [t]
  | _ => []

/-- The primitives in a node. -/
def Desc.primitives {ε : Type} : Desc ε → List Primitive
  | .prim v => [v]
  | .switch _ bs _ => bs.map Switch.Binding.value
  | _ => []

/-- The type codec takes the type back. -/
def QualType.RoundTrips (L : Layout) (qty : QualType) : Prop :=
  qty.constraints = [] ∧ Sized (Lang.encode qty.monoType) ∧
    ∃ n, Lang.decode L (Lang.encode qty.monoType) = some (qty.monoType, n)

namespace Expr

def Made : Expr → Prop := Each fun e => e.desc.Made

/-- The type codec takes back the types in the expression. -/
def Annotated (L : Layout) : Expr → Prop :=
  Each fun e => (∀ t ∈ e.type, t.RoundTrips L) ∧ ∀ t ∈ e.desc.types, t.RoundTrips L

def NoFloat : Expr → Prop := Each fun e => ∀ v ∈ e.desc.primitives, ∀ x, v ≠ .float x

/-- What `encode` writes. -/
def code (e : Expr) : Bytes := e.encode.getD []

/-- What `encode` writes for a default. -/
def defaultCode (d : Option Expr) : Bytes :=
  d.elim (writeBool false) fun e => writeBool true ++ e.code

/-- The expression is encoded, and its code is decoded exactly if there is no `float` in it. -/
structure Codes (L : Layout) (e : Expr) : Prop where
  encode : e.encode = some e.code
  decode : ∀ fuel, e.code.length ≤ fuel → Decodes (decodeFrom L fuel) e.NoFloat e.code e

end Expr

def boundCode (b : Bytes × Expr) : Bytes := writeString b.1 ++ b.2.code

def Case.Binding.code (b : Case.Binding Expr) : Bytes :=
  writeString b.selector ++ (writeString b.vname ++ b.exp.code)

/-- The selector as an expression. -/
def Switch.Binding.selector (b : Switch.Binding Expr) : Expr := .mk (.prim b.value) b.valueType

def Switch.Binding.code (b : Switch.Binding Expr) : Bytes := b.selector.code ++ b.exp.code

/-! ### Plain values -/

namespace Decode

variable {L : Layout}

lemma decodes_number {k n : ℕ} (hn : n < 256 ^ k) : Decodes (number k) True (leBytes k n) n :=
  Decodes.number Decodes.read hn

lemma decodes_bool (b : Bool) : Decodes bool True (writeBool b) b := by
  cases b
  · exact (decodes_number (k := 1) (n := 0) (by decide)).map (· != 0)
  · exact (decodes_number (k := 1) (n := 1) (by decide)).map (· != 0)

lemma decodes_bits {k : ℕ} (x : BitVec (8 * k)) : Decodes (bits k) True (leBytes k x.toNat) x := by
  have hx : x.toNat < 256 ^ k := lt_of_lt_of_eq x.isLt (Nat.pow_mul 2 8 k)
  have h := (decodes_number hx).map fun n => BitVec.ofNat (8 * k) n
  rwa [BitVec.ofNat_toNat, BitVec.setWidth_eq] at h

lemma decodes_string {s : Bytes} (hs : Sized s) : Decodes string True (writeString s) s :=
  Decodes.counted Decodes.read hs

lemma decodes_vector {α : Type} {r : Stream α} {f : α → Bytes} {P : α → Prop} {xs : List α}
    (hxs : Sized xs) (h : ∀ x ∈ xs, Decodes r (P x) (f x) x) :
    Decodes (vector r) (∀ x ∈ xs, P x) (writeVector f xs) xs := by
  have := Decodes.replicate (g := id) h
  rw [List.map_id] at this
  exact (decodes_number hxs).bind_true this

lemma decodes_qualType {qty : QualType} (h : qty.RoundTrips L) :
    ∃ bs, qty.encode = some bs ∧ Decodes (qualType L) True bs qty := by
  obtain ⟨cs, ty⟩ := qty
  obtain ⟨hcs, hsize, n, hdecode⟩ := h
  simp only at hcs hsize hdecode
  subst hcs
  refine ⟨writeSize 0 ++ writeString (Lang.encode ty), rfl, ?_⟩
  have hpos := encode_length_pos ty
  have hread := (Decodes.ofOption hdecode).map fun mty => (⟨[], mty.1⟩ : QualType)
  rw [qualType]
  apply (decodes_number (k := 8) (n := 0) (by decide)).bind_true
  rw [← List.append_nil (writeString _)]
  apply (decodes_string hsize).bind_true
  rwa [if_neg (by rw [List.isEmpty_iff_length_eq_zero]; omega)]

lemma decodes_type {t : Option QualType} (h : ∀ qty ∈ t, qty.RoundTrips L) :
    ∃ bs, encodeType t = some bs ∧ Decodes (type L) True bs t := by
  cases t with
  | none => exact ⟨_, rfl, (decodes_bool false).bind_true (Decodes.pure _)⟩
  | some qty =>
    obtain ⟨bs, hencode, hdecode⟩ := decodes_qualType (h qty rfl)
    refine ⟨writeBool true ++ bs, by simp [encodeType, hencode], ?_⟩
    exact (decodes_bool true).bind_true (hdecode.map some)

/-! ### The readers of nodes -/

section

variable {r : Stream Expr} {p q : Prop} {e e' : Expr} {bs bs' : Bytes}

lemma decodes_letIn {id : Bytes} (hid : Sized id) (h : Decodes r p bs e) (h' : Decodes r q bs' e') :
    Decodes (letIn r) (p ∧ q) (writeString id ++ (bs ++ bs')) (.letIn id e e') :=
  (decodes_string hid).bind_true (h.bind (h'.map _))

lemma decodes_assign (h : Decodes r p bs e) (h' : Decodes r q bs' e') :
    Decodes (assign r) (p ∧ q) (bs ++ bs') (.assign e e') :=
  h.bind (h'.map _)

lemma decodes_aindex (h : Decodes r p bs e) (h' : Decodes r q bs' e') :
    Decodes (aindex r) (p ∧ q) (bs ++ bs') (.aindex e e') :=
  h.bind (h'.map _)

lemma decodes_mkVariant {lbl : Bytes} (hlbl : Sized lbl) (h : Decodes r p bs e) :
    Decodes (mkVariant r) p (writeString lbl ++ bs) (.mkVariant lbl e) :=
  (decodes_string hlbl).bind_true (h.map _)

lemma decodes_proj {field : Bytes} (hfield : Sized field) (h : Decodes r p bs e) :
    Decodes (proj r) p (bs ++ writeString field) (.proj e field) :=
  (h.bind ((decodes_string hfield).map _)).congr (iff_of_eq (and_true p))

lemma decodes_unpack {vn : Bytes} (hvn : Sized vn) (h : Decodes r p bs e) (h' : Decodes r q bs' e') :
    Decodes (unpack r) (p ∧ q) (writeString vn ++ (bs ++ bs')) (.unpack vn e e') :=
  (decodes_string hvn).bind_true (h.bind (h'.map _))

lemma decodes_fn {vs : List Bytes} (hvs : Sized vs ∧ ∀ v ∈ vs, Sized v)
    (hmade : Fn.make vs e = .fn vs e) (h : Decodes r p bs e) :
    Decodes (fn r) p (writeVector writeString vs ++ bs) (.fn vs e) := by
  have hargs := (decodes_vector hvs.1 fun v hv => decodes_string (hvs.2 v hv)).congr (q := True)
    (iff_of_true (fun _ _ => trivial) trivial)
  have hfn : Decodes (fn r) p (writeVector writeString vs ++ bs) (Fn.make vs e) :=
    hargs.bind_true (h.map (Fn.make vs))
  rwa [hmade] at hfn

lemma decodes_bound {b : Bytes × Expr} (hb : Sized b.1) (h : Decodes r p b.2.code b.2) :
    Decodes (bound r) p (boundCode b) b :=
  (decodes_string hb).bind_true (h.map _)

lemma decodes_caseBinding {b : Case.Binding Expr} (hb : Sized b.selector ∧ Sized b.vname)
    (h : Decodes r p b.exp.code b.exp) : Decodes (caseBinding r) p b.code b :=
  (decodes_string hb.1).bind_true ((decodes_string hb.2).bind_true (h.map _))

lemma decodes_switchBinding {b : Switch.Binding Expr} (hv : Decodes r q b.selector.code b.selector)
    (h : Decodes r p b.exp.code b.exp) : Decodes (switchBinding r) (q ∧ p) b.code b :=
  hv.bind (h.map _)

lemma decodes_dflt {d : Option Expr} {P : Expr → Prop} (h : ∀ e ∈ d, Decodes r (P e) e.code e) :
    Decodes (dflt r) (∀ e ∈ d, P e) (Expr.defaultCode d) d := by
  cases d with
  | none =>
    exact ((decodes_bool false).bind_true (Decodes.pure none)).congr (by simp)
  | some e =>
    exact ((decodes_bool true).bind_true ((h e rfl).map some)).congr (by simp)

lemma decodes_case {cs : List (Case.Binding Expr)} {d : Option Expr} {p₁ p₂ p₃ : Prop}
    {c₁ c₂ c₃ : Bytes} (h₁ : Decodes r p₁ c₁ e) (h₂ : Decodes (vector (caseBinding r)) p₂ c₂ cs)
    (h₃ : Decodes (dflt r) p₃ c₃ d) :
    Decodes (case r) (p₁ ∧ p₂ ∧ p₃) (c₁ ++ (c₂ ++ c₃)) (.case e cs d) :=
  h₁.bind (h₂.bind (h₃.map _))

lemma decodes_switch {cs : List (Switch.Binding Expr)} {d : Option Expr} {p₁ p₂ p₃ : Prop}
    {c₁ c₂ c₃ : Bytes} (hmade : Switch.make e cs d = some (.switch e cs d))
    (h₁ : Decodes r p₁ c₁ e) (h₂ : Decodes (vector (switchBinding r)) p₂ c₂ cs)
    (h₃ : Decodes (dflt r) p₃ c₃ d) :
    Decodes (switch r) (p₁ ∧ p₂ ∧ p₃) (c₁ ++ (c₂ ++ c₃)) (.switch e cs d) := by
  have hd := (h₃.bind (k := fun d => Stream.ofOption (Switch.make e cs d))
    (Decodes.ofOption hmade)).congr (iff_of_eq (and_true _))
  rw [List.append_nil] at hd
  exact h₁.bind (h₂.bind hd)

end

end Decode

/-! ### The writers of vectors -/

section

variable {es : List Expr}

lemma encodeExprs_eq (h : ∀ e ∈ es, e.encode = some e.code) :
    encodeExprs es = some (es.flatMap Expr.code) := by
  induction es with
  | nil => rfl
  | cons e es ih =>
    obtain ⟨he, hes⟩ := List.forall_mem_cons.mp h
    simp [encodeExprs, he, ih hes]

lemma encodeBound_eq {bs : List (Bytes × Expr)} (h : ∀ b ∈ bs, b.2.encode = some b.2.code) :
    encodeBound bs = some (bs.flatMap boundCode) := by
  induction bs with
  | nil => rfl
  | cons b bs ih =>
    obtain ⟨hb, hbs⟩ := List.forall_mem_cons.mp h
    simp [encodeBound, boundCode, hb, ih hbs]

lemma encodeCases_eq {bs : List (Case.Binding Expr)} (h : ∀ b ∈ bs, b.exp.encode = some b.exp.code) :
    encodeCases bs = some (bs.flatMap Case.Binding.code) := by
  induction bs with
  | nil => rfl
  | cons b bs ih =>
    obtain ⟨hb, hbs⟩ := List.forall_mem_cons.mp h
    simp [encodeCases, Case.Binding.code, hb, ih hbs]

lemma Expr.encode_selector (b : Switch.Binding Expr) :
    b.selector.encode = encodePrimitive b.value b.valueType := by
  simp [Switch.Binding.selector, Expr.encode, encodeDesc, encodePrimitive]

lemma encodeSwitches_eq {bs : List (Switch.Binding Expr)}
    (hv : ∀ b ∈ bs, b.selector.encode = some b.selector.code)
    (h : ∀ b ∈ bs, b.exp.encode = some b.exp.code) :
    encodeSwitches bs = some (bs.flatMap Switch.Binding.code) := by
  induction bs with
  | nil => rfl
  | cons b bs ih =>
    obtain ⟨hb, hbs⟩ := List.forall_mem_cons.mp h
    obtain ⟨hvb, hvbs⟩ := List.forall_mem_cons.mp hv
    rw [Expr.encode_selector] at hvb
    simp [encodeSwitches, Switch.Binding.code, hvb, hb, ih hvbs hbs]

lemma encodeDefault_eq {d : Option Expr} (h : ∀ e ∈ d, e.encode = some e.code) :
    encodeDefault d = some (Expr.defaultCode d) := by
  cases d with
  | none => rfl
  | some e => simp [encodeDefault, Expr.defaultCode, h e rfl]

end

/-! ### The round trip -/

section

variable {L : Layout} {d : Desc Expr} {t : Option QualType}

/-- The node is encoded after a case id, and it is decoded exactly if there is no `float` in it. -/
structure Desc.Codes (L : Layout) (d : Desc Expr) (cid : BitVec 32) (bs : Bytes) : Prop where
  encode : encodeDesc d = some (writeInt cid ++ bs)
  decode : ∀ fuel, bs.length ≤ fuel →
    Decodes (Decode.desc L (Expr.decodeFrom L fuel) cid.toNat)
      ((∀ v ∈ d.primitives, ∀ x, v ≠ .float x) ∧ ∀ c ∈ d.parts, c.NoFloat) bs d

lemma Expr.noFloat_mk : Expr.NoFloat (.mk d t) ↔
    (∀ v ∈ d.primitives, ∀ x, v ≠ .float x) ∧ ∀ c ∈ d.parts, c.NoFloat :=
  Expr.each_mk

lemma Desc.Codes.expr {cid : BitVec 32} {bs : Bytes} (h : d.Codes L cid bs)
    (ht : ∀ qty ∈ t, qty.RoundTrips L) : Expr.Codes L (.mk d t) := by
  obtain ⟨ty, htype, hty⟩ := Decode.decodes_type ht
  have hencode : Expr.encode (.mk d t) = some (writeInt cid ++ (bs ++ ty)) := by
    simp [Expr.encode, h.encode, htype]
  have hcode : Expr.code (.mk d t) = writeInt cid ++ (bs ++ ty) := by simp [Expr.code, hencode]
  refine ⟨by rw [hencode, hcode], fun fuel hfuel => ?_⟩
  rw [hcode] at hfuel ⊢
  simp only [List.length_append, writeInt, leBytes_length] at hfuel
  obtain ⟨fuel, rfl⟩ : ∃ k, fuel = k + 1 := ⟨fuel - 1, by omega⟩
  have hdesc := (h.decode fuel (by omega)).bind
    (k := fun d => do let t ← Decode.type L; return Expr.mk d t) (hty.map fun t => Expr.mk d t)
  exact ((Decode.decodes_number (k := 4) cid.isLt).bind_true hdesc).congr
    ((iff_of_eq (and_true _)).trans Expr.noFloat_mk.symm)

/-- All primitives but `float` are decoded. -/
lemma codes_prim (L : Layout) (v : Primitive) : ∃ bs, Desc.Codes L (.prim v) v.caseId bs := by
  have hnone {cid : BitVec 32} {bs : Bytes} (hencode : v.encode = writeInt cid ++ bs)
      (hv : ∀ x, v ≠ .float x)
      (h : ∀ r, Decodes (Decode.desc L r cid.toNat) True bs (.prim v)) :
      Desc.Codes L (.prim v) cid bs := by
    refine ⟨by simp [encodeDesc, hencode], fun fuel _ => (h _).congr ?_⟩
    simpa [Desc.primitives, Desc.parts] using hv
  cases v with
  | unit => exact ⟨_, hnone rfl nofun fun r => Decodes.pure _⟩
  | bool x => exact ⟨_, hnone rfl nofun fun r => (Decode.decodes_bool x).map _⟩
  | char x => exact ⟨_, hnone rfl nofun fun r => (Decode.decodes_bits (k := 1) x).map _⟩
  | byte x => exact ⟨_, hnone rfl nofun fun r => (Decode.decodes_bits (k := 1) x).map _⟩
  | short x => exact ⟨_, hnone rfl nofun fun r => (Decode.decodes_bits (k := 2) x).map _⟩
  | int x => exact ⟨_, hnone rfl nofun fun r => (Decode.decodes_bits (k := 4) x).map _⟩
  | long x => exact ⟨_, hnone rfl nofun fun r => (Decode.decodes_bits (k := 8) x).map _⟩
  | float x =>
    refine ⟨_, rfl, fun fuel _ => (Decodes.fail _ _).congr ?_⟩
    simp [Desc.primitives]
  | double x => exact ⟨_, hnone rfl nofun fun r => (Decode.decodes_bits (k := 8) x).map _⟩

/-- A vector of expressions is shorter than the code it is in. -/
lemma Expr.Codes.decodes {α : Type} {xs : List α} {exp : α → Expr} {f : α → Bytes} {fuel : ℕ}
    (h : ∀ x ∈ xs, (exp x).Codes L) (hf : ∀ x ∈ xs, (exp x).code.length ≤ (f x).length)
    (hfuel : (writeVector f xs).length ≤ fuel) :
    ∀ x ∈ xs, Decodes (decodeFrom L fuel) (exp x).NoFloat (exp x).code (exp x) := by
  intro x hx
  have hle := length_le_flatMap_of_mem (f := f) hx
  rw [writeVector, List.length_append] at hfuel
  exact (h x hx).decode fuel (by have := hf x hx; omega)

lemma Expr.Codes.decodes_dflt {dflt : Option Expr} {fuel : ℕ} (h : ∀ e ∈ dflt, e.Codes L)
    (hfuel : (Expr.defaultCode dflt).length ≤ fuel) :
    Decodes (Decode.dflt (decodeFrom L fuel)) (∀ e ∈ dflt, e.NoFloat) (Expr.defaultCode dflt) dflt :=
  Decode.decodes_dflt fun e he => (h e he).decode fuel (by
    rw [Expr.defaultCode, Option.mem_def.mp he, Option.elim_some, List.length_append] at hfuel
    omega)

lemma codes_case {v : Expr} {bs : List (Case.Binding Expr)} {dflt : Option Expr}
    (hmade : (Desc.case v bs dflt).Made) (hv : v.Codes L) (hbs : ∀ b ∈ bs, b.exp.Codes L)
    (hd : ∀ e ∈ dflt, e.Codes L) :
    Desc.Codes L (.case v bs dflt) 19
      (v.code ++ (writeVector Case.Binding.code bs ++ Expr.defaultCode dflt)) := by
  have hcases := encodeCases_eq fun b hb => (hbs b hb).encode
  have hdflt := encodeDefault_eq fun e he => (hd e he).encode
  refine ⟨by simp [encodeDesc, hv.encode, hcases, hdflt, writeVector], fun fuel hfuel => ?_⟩
  simp only [List.length_append] at hfuel
  have hle : ∀ b ∈ bs, b.exp.code.length ≤ b.code.length := fun b _ => by
    rw [Case.Binding.code, List.length_append, List.length_append]
    omega
  have hexp : ∀ b ∈ bs, Decodes (Expr.decodeFrom L fuel) b.exp.NoFloat b.exp.code b.exp :=
    Expr.Codes.decodes hbs hle (by omega)
  have hvector := Decode.decodes_vector hmade.1 fun b hb =>
    Decode.decodes_caseBinding (hmade.2 b hb) (hexp b hb)
  refine (Decode.decodes_case (hv.decode fuel (by omega)) hvector
    (Expr.Codes.decodes_dflt hd (by omega))).congr ?_
  simp [Desc.primitives, Desc.parts, List.forall_mem_append, List.forall_mem_map,
    -List.mem_append, -List.mem_map]

lemma codes_switch {v : Expr} {bs : List (Switch.Binding Expr)} {dflt : Option Expr}
    (hmade : (Desc.switch v bs dflt).Made) (hv : v.Codes L) (hbs : ∀ b ∈ bs, b.exp.Codes L)
    (htypes : ∀ b ∈ bs, ∀ qty ∈ b.valueType, qty.RoundTrips L) (hd : ∀ e ∈ dflt, e.Codes L) :
    Desc.Codes L (.switch v bs dflt) 20
      (v.code ++ (writeVector Switch.Binding.code bs ++ Expr.defaultCode dflt)) := by
  have hsel : ∀ b ∈ bs, b.selector.Codes L := fun b hb =>
    (codes_prim L b.value).elim fun _ h => h.expr (htypes b hb)
  have hcases := encodeSwitches_eq (fun b hb => (hsel b hb).encode) fun b hb => (hbs b hb).encode
  have hdflt := encodeDefault_eq fun e he => (hd e he).encode
  refine ⟨by simp [encodeDesc, hv.encode, hcases, hdflt, writeVector], fun fuel hfuel => ?_⟩
  simp only [List.length_append] at hfuel
  have hle : ∀ b ∈ bs, b.exp.code.length ≤ b.code.length := fun b _ => by
    rw [Switch.Binding.code, List.length_append]
    omega
  have hle' : ∀ b ∈ bs, b.selector.code.length ≤ b.code.length := fun b _ => by
    rw [Switch.Binding.code, List.length_append]
    omega
  have hexp : ∀ b ∈ bs, Decodes (Expr.decodeFrom L fuel) b.exp.NoFloat b.exp.code b.exp :=
    Expr.Codes.decodes hbs hle (by omega)
  have hvalue : ∀ b ∈ bs,
      Decodes (Expr.decodeFrom L fuel) b.selector.NoFloat b.selector.code b.selector :=
    Expr.Codes.decodes hsel hle' (by omega)
  have hvector := Decode.decodes_vector hmade.1 fun b hb =>
    Decode.decodes_switchBinding (hvalue b hb) (hexp b hb)
  refine (Decode.decodes_switch hmade.2 (hv.decode fuel (by omega)) hvector
    (Expr.Codes.decodes_dflt hd (by omega))).congr ?_
  have hselector (b : Switch.Binding Expr) : b.selector.NoFloat ↔ ∀ x, b.value ≠ .float x := by
    simp [Switch.Binding.selector, Expr.noFloat_mk, Desc.primitives, Desc.parts]
  simp only [hselector, Desc.primitives, Desc.parts, List.forall_mem_append, List.forall_mem_map,
    List.forall_mem_cons, Option.mem_toList, forall_and]
  exact ⟨fun h => ⟨h.2.1.1, ⟨h.1, h.2.1.2⟩, h.2.2⟩, fun h => ⟨h.2.1.1, ⟨h.1, h.2.1.2⟩, h.2.2⟩⟩

lemma codes_desc (hmade : d.Made) (htypes : ∀ qty ∈ d.types, qty.RoundTrips L)
    (h : ∀ c ∈ d.parts, c.Codes L) : ∃ cid bs, d.Codes L cid bs := by
  cases d with
  | prim v => exact ⟨_, codes_prim L v⟩
  | var id =>
    refine ⟨9, writeString id, by simp [encodeDesc], fun fuel _ => ?_⟩
    exact ((Decode.decodes_string hmade).map _).congr (by simp [Desc.primitives, Desc.parts])
  | letIn id e b =>
    have he := h e (by simp [Desc.parts])
    have hb := h b (by simp [Desc.parts])
    refine ⟨10, writeString id ++ (e.code ++ b.code), by simp [encodeDesc, he.encode, hb.encode],
      fun fuel hfuel => ?_⟩
    simp only [List.length_append] at hfuel
    exact (Decode.decodes_letIn hmade (he.decode fuel (by omega)) (hb.decode fuel (by omega))).congr
      (by simp [Desc.primitives, Desc.parts])
  | letRec bs e =>
    have hbs : ∀ b ∈ bs, b.2.Codes L := fun b hb =>
      h b.2 (List.mem_append_left _ (List.mem_map_of_mem hb))
    have he := h e (by simp [Desc.parts])
    have hencode := encodeBound_eq fun b hb => (hbs b hb).encode
    refine ⟨11, writeVector boundCode bs ++ e.code,
      by simp [encodeDesc, hencode, he.encode, writeVector], fun fuel hfuel => ?_⟩
    rw [List.length_append] at hfuel
    have hvector := Decode.decodes_vector hmade.1 fun b hb => Decode.decodes_bound (hmade.2 b hb)
      (Expr.Codes.decodes hbs (fun b _ => by simp [boundCode]) (Nat.le_of_add_right_le hfuel) b hb)
    refine (hvector.bind ((he.decode fuel (by omega)).map fun e => Desc.letRec bs e)).congr ?_
    simp [Desc.primitives, Desc.parts, List.forall_mem_append, List.forall_mem_map,
      -List.mem_append, -List.mem_map]
  | fn vs e =>
    have he := h e (by simp [Desc.parts])
    refine ⟨12, writeVector writeString vs ++ e.code, by simp [encodeDesc, he.encode],
      fun fuel hfuel => ?_⟩
    rw [List.length_append] at hfuel
    exact (Decode.decodes_fn hmade.1 hmade.2 (he.decode fuel (by omega))).congr
      (by simp [Desc.primitives, Desc.parts])
  | app fne argl =>
    have he := h fne (by simp [Desc.parts])
    have hargs : ∀ e ∈ argl, e.Codes L := fun e he => h e (List.mem_cons_of_mem _ he)
    have hencode := encodeExprs_eq fun e he => (hargs e he).encode
    refine ⟨13, fne.code ++ writeVector Expr.code argl,
      by simp [encodeDesc, hencode, he.encode, writeVector], fun fuel hfuel => ?_⟩
    rw [List.length_append] at hfuel
    have hvector := Decode.decodes_vector hmade.1
      (Expr.Codes.decodes hargs (fun _ _ => Nat.le_refl _) (Nat.le_of_add_left_le hfuel))
    have happ : Decodes (Decode.app (Expr.decodeFrom L fuel)) _ _ (App.make fne argl) :=
      (he.decode fuel (by omega)).bind (hvector.map fun args => App.make fne args)
    rw [hmade.2] at happ
    exact happ.congr (by simp [Desc.primitives, Desc.parts])
  | assign lhs rhs =>
    have hl := h lhs (by simp [Desc.parts])
    have hr := h rhs (by simp [Desc.parts])
    refine ⟨14, lhs.code ++ rhs.code, by simp [encodeDesc, hl.encode, hr.encode],
      fun fuel hfuel => ?_⟩
    rw [List.length_append] at hfuel
    exact (Decode.decodes_assign (hl.decode fuel (by omega)) (hr.decode fuel (by omega))).congr
      (by simp [Desc.primitives, Desc.parts])
  | mkArray es =>
    have hes : ∀ e ∈ es, e.Codes L := h
    have hencode := encodeExprs_eq fun e he => (hes e he).encode
    refine ⟨15, writeVector Expr.code es, by simp [encodeDesc, hencode, writeVector],
      fun fuel hfuel => ?_⟩
    have hvector := Decode.decodes_vector hmade
      (Expr.Codes.decodes hes (fun _ _ => Nat.le_refl _) hfuel)
    exact (hvector.map Desc.mkArray).congr (by simp [Desc.primitives, Desc.parts])
  | mkVariant lbl e =>
    have he := h e (by simp [Desc.parts])
    refine ⟨16, writeString lbl ++ e.code, by simp [encodeDesc, he.encode], fun fuel hfuel => ?_⟩
    rw [List.length_append] at hfuel
    exact (Decode.decodes_mkVariant hmade (he.decode fuel (by omega))).congr
      (by simp [Desc.primitives, Desc.parts])
  | mkRecord fs =>
    have hfs : ∀ f ∈ fs, f.2.Codes L := fun f hf => h f.2 (List.mem_map_of_mem hf)
    have hencode := encodeBound_eq fun f hf => (hfs f hf).encode
    refine ⟨17, writeVector boundCode fs,
      by simp [encodeDesc, hencode, writeVector], fun fuel hfuel => ?_⟩
    have hvector := Decode.decodes_vector hmade.1 fun f hf => Decode.decodes_bound (hmade.2 f hf)
      (Expr.Codes.decodes hfs (fun f _ => by simp [boundCode]) hfuel f hf)
    refine (hvector.map Desc.mkRecord).congr ?_
    simp [Desc.primitives, Desc.parts, List.forall_mem_map, -List.mem_map]
  | aindex arr i =>
    have ha := h arr (by simp [Desc.parts])
    have hi := h i (by simp [Desc.parts])
    refine ⟨18, arr.code ++ i.code, by simp [encodeDesc, ha.encode, hi.encode],
      fun fuel hfuel => ?_⟩
    rw [List.length_append] at hfuel
    exact (Decode.decodes_aindex (ha.decode fuel (by omega)) (hi.decode fuel (by omega))).congr
      (by simp [Desc.primitives, Desc.parts])
  | case v bs dflt =>
    simp only [Desc.parts, List.forall_mem_append, List.forall_mem_cons, List.forall_mem_map,
      Option.mem_toList] at h
    exact ⟨_, _, codes_case hmade h.1.1 h.1.2 h.2⟩
  | switch v bs dflt =>
    simp only [Desc.parts, List.forall_mem_append, List.forall_mem_cons, List.forall_mem_map,
      Option.mem_toList] at h
    refine ⟨_, _, codes_switch hmade h.1.1 h.1.2 (fun b hb qty hqty => htypes qty ?_) h.2⟩
    exact List.mem_filterMap.mpr ⟨b, hb, hqty⟩
  | proj r field =>
    have hr := h r (by simp [Desc.parts])
    refine ⟨21, r.code ++ writeString field, by simp [encodeDesc, hr.encode], fun fuel hfuel => ?_⟩
    rw [List.length_append] at hfuel
    exact (Decode.decodes_proj hmade (hr.decode fuel (by omega))).congr
      (by simp [Desc.primitives, Desc.parts])
  | assump e t =>
    have he := h e (by simp [Desc.parts])
    obtain ⟨bs, hencode, ht⟩ := Decode.decodes_qualType (htypes t (by simp [Desc.types]))
    refine ⟨22, e.code ++ bs, by simp [encodeDesc, he.encode, hencode], fun fuel hfuel => ?_⟩
    rw [List.length_append] at hfuel
    exact ((he.decode fuel (by omega)).bind (ht.map fun t => Desc.assump e t)).congr
      (by simp [Desc.primitives, Desc.parts])
  | pack e =>
    have he := h e (by simp [Desc.parts])
    refine ⟨23, e.code, by simp [encodeDesc, he.encode], fun fuel hfuel => ?_⟩
    exact ((he.decode fuel hfuel).map Desc.pack).congr (by simp [Desc.primitives, Desc.parts])
  | unpack vn pkg body =>
    have hp := h pkg (by simp [Desc.parts])
    have hb := h body (by simp [Desc.parts])
    refine ⟨24, writeString vn ++ (pkg.code ++ body.code),
      by simp [encodeDesc, hp.encode, hb.encode], fun fuel hfuel => ?_⟩
    simp only [List.length_append] at hfuel
    exact (Decode.decodes_unpack hmade (hp.decode fuel (by omega)) (hb.decode fuel (by omega))).congr
      (by simp [Desc.primitives, Desc.parts])

lemma codes (e : Expr) : e.Made → e.Annotated L → e.Codes L := by
  induction e with
  | mk d t ih =>
    intro hmade htypes
    obtain ⟨hd, hparts⟩ := Expr.each_mk.mp hmade
    obtain ⟨ht, htparts⟩ := Expr.each_mk.mp htypes
    obtain ⟨cid, bs, h⟩ := codes_desc hd ht.2 fun c hc => ih c hc (hparts c hc) (htparts c hc)
    exact h.expr ht.1

/-- What is encoded is taken back, and no more than it is read, exactly if there is no literal of
type `float` in it. -/
theorem Expr.decode_encode_iff_noFloat {e : Expr} (hmade : e.Made) (htypes : e.Annotated L) :
    (∃ bs, e.encode = some bs ∧ ∀ rest, decode L (bs ++ rest) = some (e, rest)) ↔ e.NoFloat := by
  obtain ⟨hencode, hdecode⟩ := codes e hmade htypes
  have hdecodes : Decodes (decode L) e.NoFloat e.code e := fun rest =>
    hdecode _ (by rw [List.length_append]; omega) rest
  rw [← hdecodes.iff]
  constructor
  · rintro ⟨bs, hbs, h⟩
    rw [hencode, Option.some.injEq] at hbs
    rwa [hbs]
  · exact fun h => ⟨e.code, hencode, h⟩

/-- `f(1 :: int)` -/
theorem Expr.decode_encode_app :
    ∃ bs, Expr.encode (.mk (.app (.mk (.var [102]) none)
          [.mk (.prim (.int 1)) (some ⟨[], .prim [105] none⟩)]) none) = some bs ∧
      ∀ rest, Expr.decode ⟨fun _ => some 4, fun _ => some 4⟩ (bs ++ rest) =
        some (.mk (.app (.mk (.var [102]) none)
          [.mk (.prim (.int 1)) (some ⟨[], .prim [105] none⟩)]) none, rest) := by
  have hint : QualType.RoundTrips ⟨fun _ => some 4, fun _ => some 4⟩ ⟨[], .prim [105] none⟩ :=
    ⟨rfl, by rw [Sized]; decide, _, rfl⟩
  refine (Expr.decode_encode_iff_noFloat ?_ ?_).mpr ?_
  · simp [Expr.Made, Expr.each_mk, Desc.parts, Desc.Made, Expr.desc, Sized, App.make]
  · simpa [Expr.Annotated, Expr.each_mk, Desc.parts, Desc.types, Expr.desc, Expr.type] using hint
  · simp [Expr.NoFloat, Expr.each_mk, Desc.parts, Desc.primitives, Expr.desc]

/-- The literal `0.0f` is encoded, but there is no case for it in the decoder. -/
theorem Expr.decode_encode_float :
    Expr.Made (.mk (.prim (.float 0)) none) ∧
      Expr.Annotated ⟨fun _ => some 4, fun _ => some 4⟩ (.mk (.prim (.float 0)) none) ∧
      Expr.encode (.mk (.prim (.float 0)) none) = some [7, 0, 0, 0, 0, 0, 0, 0, 0] ∧
      Expr.decode ⟨fun _ => some 4, fun _ => some 4⟩ [7, 0, 0, 0, 0, 0, 0, 0, 0] = none := by
  refine ⟨?_, ?_, rfl, rfl⟩
  · simp [Expr.Made, Expr.each_mk, Desc.parts, Desc.Made, Expr.desc]
  · simp [Expr.Annotated, Expr.each_mk, Desc.parts, Desc.types, Expr.desc, Expr.type]

end

end Hobbes.Lang
