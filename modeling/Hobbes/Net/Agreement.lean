import Hobbes.Net.BlockCodec

/-!
# Both ends

Where the server has a codec, it writes the bytes that the client writes, and reads from them what was
written. Together with the client's own reads, that is what the two ends agree on.
-/

namespace Hobbes.Net

open Core Stream

variable {α β γ δ κ κ' ρ σ : Type}

/-- The server writes for the value that corresponds to `v` what the client writes for `v`, and it reads that
value. -/
def Io.Agrees (io : Io α) (c : BlockCodec β) (R : α → β → Prop) : Prop :=
  ∀ v, io.Valid v → ∃ w, R v w ∧ c.writeTo w = io.write v ∧ Decodes c.readFrom True (io.write v) w

/-- The same for the payload of a variant. -/
def Ctors.Agrees (cs : Ctors γ) (c : BlockVar δ) (R : γ → δ → Prop) : Prop :=
  ∀ p, cs.Valid p → ∃ q, R p q ∧ (∀ tg, c.writeVarWithTag tg q = leBytes 4 (tg + cs.tag p) ++ cs.write p) ∧
    Decodes (c.readVarByTag (cs.tag p)) True (cs.write p) q

/-! ### Primitive types -/

lemma decodes_prim {n : ℕ} (v : Mem n) : Decodes (BlockCodec.prim n).readFrom True (List.ofFn v) v := by
  have h := (Decodes.recv (List.ofFn v)).map fun bs (i : Fin n) => (bs[i.1]?).getD 0
  rw [List.length_ofFn] at h
  have hget : (fun i : Fin n => ((List.ofFn v)[i.1]?).getD 0) = v := by
    funext i
    simp
  rwa [hget] at h

lemma agrees_prim {n : ℕ} {valid : Mem n → Prop} : (Io.scalar n valid).Agrees (.prim n) Eq :=
  fun v _ => ⟨v, rfl, rfl, decodes_prim v⟩

lemma agrees_unit : Io.unit.Agrees .unit fun _ _ => True :=
  fun _ _ => ⟨(), trivial, rfl, Decodes.pure ()⟩

/-! ### Arrays -/

/-- The elements of an array that agree one by one. -/
lemma exists_elements {c : BlockCodec β} {R : α → β → Prop} {f : α → Bytes} {vs : List α}
    (h : ∀ v ∈ vs, ∃ w, R v w ∧ c.writeTo w = f v ∧ Decodes c.readFrom True (f v) w) :
    ∃ ws, List.Forall₂ R vs ws ∧ ws.flatMap c.writeTo = vs.flatMap f ∧
      Decodes (Stream.replicate vs.length c.readFrom) True (vs.flatMap f) ws := by
  induction vs with
  | nil => exact ⟨[], .nil, rfl, Decodes.pure []⟩
  | cons v vs ih =>
    obtain ⟨w, hR, hwrite, hread⟩ := h v List.mem_cons_self
    obtain ⟨ws, hRs, hwrites, hreads⟩ := ih fun v hv => h v (List.mem_cons_of_mem _ hv)
    refine ⟨w :: ws, .cons hR hRs, ?_, hread.bind_true (hreads.map fun ws => w :: ws)⟩
    rw [List.flatMap_cons, List.flatMap_cons, hwrite, hwrites]

lemma exists_array {c : BlockCodec β} {R : α → β → Prop} {f : α → Bytes} {vs : List α}
    (h : ∀ v ∈ vs, ∃ w, R v w ∧ c.writeTo w = f v ∧ Decodes c.readFrom True (f v) w)
    (hlt : vs.length < 2 ^ 63) :
    ∃ ws, List.Forall₂ R vs ws ∧ c.array.writeTo ws = Io.writeSize vs.length ++ vs.flatMap f ∧
      Decodes c.array.readFrom True (Io.writeSize vs.length ++ vs.flatMap f) ws := by
  obtain ⟨ws, hR, hwrite, hread⟩ := exists_elements h
  refine ⟨ws, hR, ?_, (decodes_size hlt).bind_true hread⟩
  show leBytes 8 ws.length ++ ws.flatMap c.writeTo = _
  rw [hwrite, hR.length_eq, Io.writeSize]

lemma Io.Agrees.vector {a : Io α} {c : BlockCodec β} {R : α → β → Prop} (h : a.Agrees c R) :
    (Io.vector a).Agrees c.array (List.Forall₂ R) :=
  fun _ hv => exists_array (fun e he => h e (hv.2 e he)) hv.1

lemma length_elements (size : ℕ) (x : Bytes) : (Io.elements size x).length = x.length / size := by
  simp [Io.elements]

/-- The memory of a vector is that of its elements. -/
lemma flatMap_elements {size : ℕ} {x : Bytes} (hdvd : size ∣ x.length) :
    (Io.elements size x).flatMap List.ofFn = x := by
  have htake : ∀ n ≤ x.length / size, ((List.range n).map fun i (j : Fin size) =>
      (x[size * i + j]?).getD 0).flatMap List.ofFn = x.take (size * n) := by
    intro n hn
    induction n with
    | zero => simp
    | succ n ih =>
      have hle : size * (n + 1) ≤ x.length := Nat.le_trans (Nat.mul_le_mul_left size hn) (Nat.mul_div_le _ _)
      rw [List.range_succ, List.map_append, List.flatMap_append, ih (Nat.le_of_succ_le hn), Nat.mul_succ,
        List.take_add, List.map_singleton, List.flatMap_singleton]
      rw [Nat.mul_succ] at hle
      congr 1
      refine List.ext_getElem (by simp; omega) fun j hj hj' => ?_
      rw [List.length_ofFn] at hj
      rw [List.getElem_ofFn, List.getElem_take, List.getElem_drop,
        List.getElem?_eq_getElem (by simp only; omega), Option.getD_some]
  rw [Io.elements, htake _ (Nat.le_refl _), Nat.mul_div_cancel' hdvd, List.take_length]

lemma Io.Agrees.block {size : ℕ} {valid : Mem size → Prop} {c : BlockCodec β} {R : Mem size → β → Prop}
    (h : (Io.scalar size valid).Agrees c R) :
    (Io.block size valid).Agrees c.array fun x y => List.Forall₂ R (Io.elements size x) y := by
  rintro v ⟨hdvd, hlt, hv⟩
  have hle : (Io.elements size v).length < 2 ^ 63 := by
    rw [length_elements]
    exact Nat.lt_of_le_of_lt (Nat.div_le_self _ _) hlt
  have harray := exists_array (fun e he => h e (hv e he)) hle
  rw [length_elements] at harray
  have hmem : (Io.elements size v).flatMap (Io.scalar size valid).write = v := flatMap_elements hdvd
  rwa [hmem] at harray

/-! ### Tuples and records -/

section Record

variable {a : Io α} {b : Io β} {c : BlockCodec γ} {d : BlockCodec δ} {R : α → γ → Prop} {S : β → δ → Prop}

lemma Io.Agrees.pair (h : a.Agrees c R) (h' : b.Agrees d S) :
    (a.pair b).Agrees (.record c d) fun x y => R x.1 y.1 ∧ S x.2 y.2 := by
  rintro ⟨v, v'⟩ ⟨hv, hv'⟩
  obtain ⟨w, hR, hwrite, hread⟩ := h v hv
  obtain ⟨w', hS, hwrite', hread'⟩ := h' v' hv'
  refine ⟨(w, w'), ⟨hR, hS⟩, ?_, hread.bind_true (hread'.map fun y => (w, y))⟩
  show c.writeTo w ++ d.writeTo w' = a.write v ++ b.write v'
  rw [hwrite, hwrite']

/-- The last field of a record comes before the unit. -/
lemma Io.Agrees.last (h : b.Agrees d S) : b.Agrees (.record d .unit) fun x y => S x y.1 := by
  intro v hv
  obtain ⟨w, hS, hwrite, hread⟩ := h v hv
  refine ⟨(w, ()), hS, ?_, ?_⟩
  · show d.writeTo w ++ [] = b.write v
    rw [hwrite, List.append_nil]
  · have hunit := hread.bind_true (k := fun x => do let y ← BlockCodec.unit.readFrom; return (x, y))
      ((Decodes.pure ()).map fun y => (w, y))
    rwa [List.append_nil] at hunit

lemma Io.Agrees.map {less : α → α → Bool} (h : a.Agrees c R) (h' : b.Agrees d S) :
    (Io.map less a b).Agrees (BlockCodec.record c (.record d .unit)).array
      fun x y => List.Forall₂ (fun e f => R e.1 f.1 ∧ S e.2 f.2.1) x y :=
  fun _ hv => exists_array (fun e he => h.pair h'.last e (hv.2.1 e he)) hv.1

lemma agrees_struct_nil : (Io.struct .nil).Agrees .unit fun _ _ => True :=
  fun _ _ => ⟨(), trivial, rfl, Decodes.pure ()⟩

lemma Io.Agrees.cons {fs : Fields β} (h : a.Agrees c R) (h' : (Io.struct fs).Agrees d S) :
    (Io.struct (.cons a fs)).Agrees (.record c d) fun x y => R x.1 y.1 ∧ S x.2 y.2 :=
  h.pair h'

lemma Io.Agrees.tuple {fs : Fields β} (h : (Io.struct fs).Agrees d S) : (Io.tuple fs).Agrees d S :=
  fun v hv => h v hv.2

end Record

/-! ### Variants -/

section Variant

variable {a : Io α} {cs : Ctors γ} {c : BlockCodec β} {v : BlockVar δ} {R : α → β → Prop} {S : γ → δ → Prop}

lemma Ctors.Agrees.last {R' : Empty → Empty → Prop} (h : a.Agrees c R) :
    (Ctors.cons a .nil).Agrees (.last c) (Sum.LiftRel R R')
  | .inl x, hx => by
    obtain ⟨y, hR, hwrite, hread⟩ := h x hx
    refine ⟨.inl y, .inl hR, fun tg => ?_, hread.map Sum.inl⟩
    show leBytes 4 tg ++ c.writeTo y = _
    rw [hwrite]
    rfl

lemma Ctors.Agrees.cons (h : a.Agrees c R) (h' : cs.Agrees v S) :
    (Ctors.cons a cs).Agrees (.cons c v) (Sum.LiftRel R S) := by
  rintro (x | p) hx
  · obtain ⟨y, hR, hwrite, hread⟩ := h x hx
    refine ⟨.inl y, .inl hR, fun tg => ?_, hread.map Sum.inl⟩
    show leBytes 4 tg ++ c.writeTo y = _
    rw [hwrite]
    rfl
  · obtain ⟨q, hS, hwrite, hread⟩ := h' p hx
    refine ⟨.inr q, .inr hS, fun tg => ?_, hread.map Sum.inr⟩
    show v.writeVarWithTag (tg + 1) q = _
    rw [hwrite, Nat.add_right_comm]
    rfl

lemma Io.Agrees.variant (h : cs.Agrees v S) :
    (Io.variant cs).Agrees (.variant v) fun x q => ∃ p, x = some p ∧ S p q := by
  rintro _ ⟨p, rfl, htag, hp⟩
  obtain ⟨q, hS, hwrite, hread⟩ := h p hp
  refine ⟨q, ⟨p, rfl, hS⟩, ?_, (decodes_number htag).bind_true hread⟩
  show v.writeVarWithTag 0 q = _
  rw [hwrite, Nat.zero_add]
  rfl

end Variant

/-! ### Enumerations -/

lemma Mem.leBytes_toNat {n : ℕ} (x : Mem n) : leBytes n x.toNat = List.ofFn x := by
  have h := leBytes_leNat (List.ofFn x)
  rwa [List.length_ofFn] at h

lemma Mem.toNat_lt {n : ℕ} (x : Mem n) : x.toNat < 256 ^ n := by
  have h := leNat_lt (List.ofFn x)
  rwa [List.length_ofFn] at h

/-- A variant whose constructors have nothing is cast back from its number. -/
lemma ctorAt_ctorIndex {cs : List HobbesTy} (hcs : cs.all HobbesTy.isUnit) (q : variantVal cs) :
    ctorAt cs (ctorIndex cs q) = some q := by
  induction cs with
  | nil => exact q.elim
  | cons t cs ih =>
    rw [List.all_cons, Bool.and_eq_true] at hcs
    match t, q with
    | .unit, .inl () => rfl
    | .unit, .inr q => exact (congrArg (Option.map Sum.inr) (ih hcs.2 q) :)

lemma ctorIndex_lt {cs : List HobbesTy} (q : variantVal cs) : ctorIndex cs q < cs.length := by
  induction cs with
  | nil => exact q.elim
  | cons t cs ih =>
    match q with
    | .inl _ => exact Nat.succ_pos _
    | .inr q => exact Nat.succ_lt_succ (ih q)

lemma exists_ctorIndex {n i : ℕ} (hi : i < n) :
    ∃ q, ctorIndex (List.replicate n .unit) q = i := by
  induction n generalizing i with
  | zero => exact absurd hi (Nat.not_lt_zero i)
  | succ n ih =>
    cases i with
    | zero => exact ⟨.inl (), rfl⟩
    | succ i =>
      obtain ⟨q, hq⟩ := ih (Nat.lt_of_succ_lt_succ hi)
      exact ⟨.inr q, congrArg (· + 1) hq⟩

lemma decodes_enum {cs : List HobbesTy} (hcs : cs.all HobbesTy.isUnit) {q : variantVal cs}
    (hq : ctorIndex cs q < 256 ^ 4) :
    Decodes (BlockCodec.enum cs).readFrom True ((BlockCodec.enum cs).writeTo q) q := by
  have h := (decodes_number hq).bind_true (k := fun tag => Stream.ofOption (ctorAt cs tag))
    (Decodes.ofOption (ctorAt_ctorIndex hcs q))
  rwa [List.append_nil] at h

lemma agrees_enum (n : ℕ) :
    (Io.scalar 4 fun x => x.toNat < n).Agrees (.enum (List.replicate n .unit))
      fun x q => ctorIndex (List.replicate n .unit) q = Mem.toNat x := by
  intro v hv
  obtain ⟨q, hq⟩ := exists_ctorIndex hv
  have hwrite : (BlockCodec.enum (List.replicate n .unit)).writeTo q = List.ofFn v := by
    rw [← Mem.leBytes_toNat, ← hq]
    rfl
  refine ⟨q, hq, hwrite, ?_⟩
  have hall : (List.replicate n HobbesTy.unit).all HobbesTy.isUnit := by simp [HobbesTy.isUnit]
  have h := decodes_enum hall (q := q) (by rw [hq]; exact Mem.toNat_lt v)
  rwa [hwrite] at h

section Units

variable (converts : String → Bool)

lemma exists_varCodec {t : HobbesTy} {ts : List HobbesTy} (hts : (t :: ts).all HobbesTy.isUnit) :
    ∃ v, varCodec converts (t :: ts) = some v ∧
      ∀ tg q, v.writeVarWithTag tg q = leBytes 4 (tg + ctorIndex (t :: ts) q) := by
  induction ts generalizing t with
  | nil =>
    match t with
    | .unit =>
      refine ⟨_, rfl, fun tg q => ?_⟩
      match q with
      | .inl () => exact List.append_nil _
  | cons t' ts ih =>
    rw [List.all_cons, Bool.and_eq_true] at hts
    obtain ⟨v, hv, hwrite⟩ := ih hts.2
    match t with
    | .unit =>
      refine ⟨.cons .unit v, ?_, fun tg q => ?_⟩
      · rw [varCodec, hv]
        rfl
      · match q with
        | .inl () => exact List.append_nil _
        | .inr q =>
          show v.writeVarWithTag (tg + 1) q = leBytes 4 (tg + (ctorIndex (t' :: ts) q + 1))
          rw [hwrite, Nat.add_assoc, Nat.add_comm 1]

end Units

/-! ### Types -/

section Types

variable {converts : String → Bool} (less : (t : Ty) → t.Val → t.Val → Bool)

lemma aliasCodec_long {name : String} :
    (aliasCodec converts name (.prim .long)).isSome = converts name := by
  cases h : converts name with
  | true => exact congrArg Option.isSome (if_pos h)
  | false => exact congrArg Option.isSome (if_neg (by rw [h]; decide))

lemma isSome_aliasCodec (name : String) (t : Ty) :
    (aliasCodec converts name t.hobbes).isSome = (t.isLong && converts name) := by
  cases t with
  | scalar s =>
    cases s with
    | long => exact aliasCodec_long
    | _ => rfl
  | struct ts =>
    cases ts with
    | nil => rfl
    | cons => rfl
  | tuple ts =>
    cases ts with
    | nil => rfl
    | cons => rfl
  | _ => rfl

lemma agrees_alias {name : String} {t : Ty} {c : BlockCodec t.hobbes.Val}
    (hc : aliasCodec converts name t.hobbes = some c) : (t.io less).Agrees c t.Corresponds := by
  have hlong : (aliasCodec converts name t.hobbes).isSome = (t.isLong && converts name) :=
    isSome_aliasCodec name t
  rw [hc, Option.isSome_some, eq_comm, Bool.and_eq_true] at hlong
  match t, hlong.1 with
  | .scalar .long, _ =>
    have hprim : aliasCodec converts name (.prim .long) = some (.prim 8) := if_pos hlong.2
    obtain rfl : .prim 8 = c := Option.some.inj (hprim.symm.trans hc)
    exact agrees_prim

lemma Scalar.agrees (s : Scalar) {c : BlockCodec s.hobbes.Val} (hc : s.hobbes.codec converts = some c) :
    (Io.scalar s.size s.Valid).Agrees c s.Corresponds := by
  cases s with
  | enum n =>
    have hall : (List.replicate n HobbesTy.unit).all HobbesTy.isUnit := by simp [HobbesTy.isUnit]
    have henum : (HobbesTy.variant (List.replicate n .unit)).codec converts = some (.enum _) := if_pos hall
    obtain rfl : BlockCodec.enum _ = c := Option.some.inj (henum.symm.trans hc)
    exact agrees_enum n
  | _ =>
    cases hc
    exact agrees_prim

/-- The payload of an enumeration has nothing but its number. -/
lemma agrees_units {cs : Ctors γ} {ts : List HobbesTy} {S : γ → variantVal ts → Prop}
    (hcs : ∀ v, varCodec converts ts = some v → cs.Agrees v S) (hts : ts.all HobbesTy.isUnit)
    (hlen : ts ≠ [] ∧ ts.length < 2 ^ 32) :
    (Io.variant cs).Agrees (.enum ts) fun x q => ∃ p, x = some p ∧ S p q := by
  match ts, hlen with
  | t :: ts, hlen =>
    obtain ⟨v, hv, hwrite⟩ := exists_varCodec converts hts
    intro x hx
    obtain ⟨q, hS, hvariant, -⟩ := Io.Agrees.variant (hcs v hv) x hx
    have henum : (BlockCodec.enum (t :: ts)).writeTo q = (Io.variant cs).write x := by
      rw [← hvariant]
      refine Eq.trans ?_ (hwrite 0 q).symm
      rw [Nat.zero_add]
      rfl
    refine ⟨q, hS, henum, ?_⟩
    rw [← henum]
    exact decodes_enum hts (Nat.lt_trans (ctorIndex_lt q) hlen.2)

lemma length_allHobbes (ts : List Ty) : (allHobbes ts).length = ts.length := by
  induction ts with
  | nil => rfl
  | cons t ts ih => exact congrArg (· + 1) ih

lemma exists_recordCodec {t : HobbesTy} {ts : List HobbesTy} {c : BlockCodec (recordVal (t :: ts))}
    (hc : recordCodec converts (t :: ts) = some c) :
    ∃ h d, t.codec converts = some h ∧ recordCodec converts ts = some d ∧ c = .record h d := by
  obtain ⟨h, hh, hc⟩ := Option.bind_eq_some_iff.1 hc
  obtain ⟨d, hd, hc⟩ := Option.bind_eq_some_iff.1 hc
  exact ⟨h, d, hh, hd, (Option.some.inj hc).symm⟩

/-- A record of two fields. -/
lemma exists_pairCodec {t u : HobbesTy} {c : BlockCodec (recordVal [t, u])}
    (hc : recordCodec converts [t, u] = some c) :
    ∃ h d, t.codec converts = some h ∧ u.codec converts = some d ∧ c = .record h (.record d .unit) := by
  obtain ⟨h, r, hh, hr, rfl⟩ := exists_recordCodec hc
  obtain ⟨d, e, hd, he, rfl⟩ := exists_recordCodec hr
  exact ⟨h, d, hh, hd, by rw [Option.some.inj he]⟩

mutual

/-- Where the server has a codec for what a type is described as, it agrees with the client. -/
lemma Ty.agrees (t : Ty) (ht : t.WellFormed) {c : BlockCodec t.hobbes.Val}
    (hc : t.hobbes.codec converts = some c) : (t.io less).Agrees c t.Corresponds := by
  match t with
  | .scalar s => exact s.agrees hc
  | .unit =>
    cases hc
    exact agrees_unit
  | .string =>
    cases hc
    exact agrees_prim.block
  | .block s =>
    obtain ⟨d, hd, rfl⟩ := Option.map_eq_some_iff.1 hc
    exact (s.agrees hd).block
  | .variant t ts =>
    have hctors : ∀ v, varCodec converts (allHobbes (t :: ts)) = some v →
        (ctorsIo less (t :: ts)).Agrees v (payloadCorresponds (t :: ts)) :=
      fun v hv => ctors_agrees (t :: ts) ht.2.2.2 hv
    by_cases hunits : (allHobbes (t :: ts)).all HobbesTy.isUnit
    · have henum : (HobbesTy.variant (allHobbes (t :: ts))).codec converts = some (.enum _) := if_pos hunits
      obtain rfl := Option.some.inj (henum.symm.trans hc)
      exact agrees_units hctors hunits ⟨List.cons_ne_nil _ _, by rw [length_allHobbes]; exact ht.1⟩
    · have hvar : (HobbesTy.variant (allHobbes (t :: ts))).codec converts =
          (varCodec converts (allHobbes (t :: ts))).map .variant := if_neg hunits
      obtain ⟨v, hv, rfl⟩ := Option.map_eq_some_iff.1 (hvar.symm.trans hc)
      exact Io.Agrees.variant (hctors v hv)
  | .pair a b =>
    obtain ⟨h, d, hh, hd, rfl⟩ := exists_pairCodec hc
    exact (Ty.agrees a ht.1 hh).pair (Ty.agrees b ht.2 hd).last
  | .vector t =>
    obtain ⟨d, hd, rfl⟩ := Option.map_eq_some_iff.1 hc
    exact (Ty.agrees t ht hd).vector
  | .map k t =>
    obtain ⟨e, he, rfl⟩ := Option.map_eq_some_iff.1 hc
    obtain ⟨h, d, hh, hd, rfl⟩ := exists_pairCodec he
    exact (Ty.agrees k ht.1 hh).map (Ty.agrees t ht.2 hd)
  | .struct [] =>
    cases hc
    exact agrees_struct_nil
  | .struct (t :: ts) => exact fields_agrees (t :: ts) ht hc
  | .tuple [] =>
    cases hc
    exact agrees_struct_nil.tuple
  | .tuple (t :: ts) => exact (fields_agrees (t :: ts) ht.2 hc).tuple
  | .typeAlias _ t => exact agrees_alias less (t := t) hc

lemma fields_agrees (ts : List Ty) (hts : AllWellFormed ts) {c : BlockCodec (recordVal (allHobbes ts))}
    (hc : recordCodec converts (allHobbes ts) = some c) :
    (Io.struct (fieldsIo less ts)).Agrees c (fieldsCorrespond ts) := by
  match ts with
  | [] =>
    cases hc
    exact agrees_struct_nil
  | t :: ts =>
    obtain ⟨h, d, hh, hd, rfl⟩ := exists_recordCodec hc
    exact (Ty.agrees t hts.1 hh).cons (fields_agrees ts hts.2 hd)

lemma ctors_agrees (ts : List Ty) (hts : AllWellFormed ts) {v : BlockVar (variantVal (allHobbes ts))}
    (hv : varCodec converts (allHobbes ts) = some v) :
    (ctorsIo less ts).Agrees v (payloadCorresponds ts) := by
  match ts with
  | [] => cases hv
  | [t] =>
    obtain ⟨c, hc, rfl⟩ := Option.map_eq_some_iff.1 hv
    exact .last (Ty.agrees t hts.1 hc)
  | t :: t' :: ts =>
    obtain ⟨c, hc, hv⟩ := Option.bind_eq_some_iff.1 hv
    obtain ⟨w, hw, hv⟩ := Option.bind_eq_some_iff.1 hv
    obtain rfl := Option.some.inj hv
    exact .cons (Ty.agrees t hts.1 hc) (ctors_agrees (t' :: ts) hts.2 hw)

end

/-! ### Types that are served -/

lemma isSome_recordCodec (ts : List HobbesTy) :
    (recordCodec converts ts).isSome = ts.all fun t => (t.codec converts).isSome := by
  induction ts with
  | nil => rfl
  | cons t ts ih =>
    rw [List.all_cons, ← ih, recordCodec]
    cases t.codec converts with
    | none => rfl
    | some c => cases recordCodec converts ts <;> rfl

lemma isSome_pairCodec (a b : HobbesTy) :
    (recordCodec converts [a, b]).isSome = ((a.codec converts).isSome && (b.codec converts).isSome) := by
  rw [isSome_recordCodec, List.all_cons, List.all_cons, List.all_nil, Bool.and_true]

lemma isSome_varCodec {ts : List HobbesTy} (hts : ts ≠ []) :
    (varCodec converts ts).isSome = ts.all fun t => (t.codec converts).isSome := by
  match ts with
  | [t] =>
    rw [List.all_cons, List.all_nil, Bool.and_true]
    exact Option.isSome_map ..
  | t :: t' :: ts =>
    have ih := isSome_varCodec (List.cons_ne_nil t' ts)
    rw [List.all_cons, ← ih, varCodec]
    cases t.codec converts with
    | none => rfl
    | some c => cases varCodec converts (t' :: ts) <;> rfl

/-- Where a variant is an enumeration, its constructors have codecs as well. -/
lemma isSome_variant {ts : List HobbesTy} (hts : ts ≠ []) :
    ((HobbesTy.variant ts).codec converts).isSome = ts.all fun t => (t.codec converts).isSome := by
  rw [HobbesTy.codec]
  split
  · next hunits =>
    refine (List.all_eq_true.2 fun t ht => ?_).symm
    match t, List.all_eq_true.1 hunits t ht with
    | .unit, _ => rfl
  · exact (Option.isSome_map ..).trans (isSome_varCodec hts)

lemma Scalar.isSome_codec (s : Scalar) : (s.hobbes.codec converts).isSome = true := by
  cases s with
  | enum n =>
    have hall : (List.replicate n HobbesTy.unit).all HobbesTy.isUnit := by simp [HobbesTy.isUnit]
    exact congrArg Option.isSome (if_pos hall)
  | _ => rfl

mutual

lemma Ty.isSome_codec (t : Ty) : (t.hobbes.codec converts).isSome = t.served converts := by
  match t with
  | .scalar s => exact s.isSome_codec
  | .unit | .string => rfl
  | .block s => exact (Option.isSome_map ..).trans s.isSome_codec
  | .variant t ts => exact (isSome_variant (List.cons_ne_nil _ _)).trans (all_isSome (t :: ts))
  | .pair a b => exact (isSome_pairCodec _ _).trans (congrArg₂ and (Ty.isSome_codec a) (Ty.isSome_codec b))
  | .vector t => exact (Option.isSome_map ..).trans (Ty.isSome_codec t)
  | .map k t =>
    exact (Option.isSome_map ..).trans
      ((isSome_pairCodec _ _).trans (congrArg₂ and (Ty.isSome_codec k) (Ty.isSome_codec t)))
  | .struct [] | .tuple [] => rfl
  | .struct (t :: ts) | .tuple (t :: ts) => exact (isSome_recordCodec _).trans (all_isSome (t :: ts))
  | .typeAlias name t => exact isSome_aliasCodec name t

lemma all_isSome (ts : List Ty) :
    (allHobbes ts).all (fun t => (t.codec converts).isSome) = allServed converts ts := by
  match ts with
  | [] => rfl
  | t :: ts => rw [allHobbes, List.all_cons, allServed, Ty.isSome_codec t, all_isSome ts]

end

/-- A tuple of a string, of a vector of pairs and of a time. -/
def exampleTuple : Ty :=
  .tuple [.string, .vector (.pair (.scalar .int) .string), .typeAlias "time" (.scalar .long)]

end Types

end Hobbes.Net
