import Hobbes.Net.AccumTypes

/-!
# Values that are read

Which types have values that are read as they were written. The elements of a vector that are copied are read
as if each of them had just one byte.
-/

namespace Hobbes.Net

open Core Stream

variable {α β γ κ ρ : Type}

def zeros (n : ℕ) : Bytes := List.replicate n 0

lemma zeros_append (m n : ℕ) : zeros m ++ zeros n = zeros (m + n) := List.replicate_append_replicate

lemma zeros_append_comm (m n : ℕ) : zeros m ++ zeros n = zeros n ++ zeros m := by
  rw [zeros_append, zeros_append, Nat.add_comm]

lemma leBytes_zero (n : ℕ) : leBytes n 0 = zeros n := by
  induction n with
  | zero => rfl
  | succ n ih =>
    rw [leBytes, Nat.zero_div, ih]
    rfl

namespace Io

/-- Every value is read by a new one as it was written. -/
def RoundTrips (io : Io α) : Prop := ∀ v, io.Valid v → Decodes (io.read io.dflt) True (io.write v) v

/-- A value whose bytes are all zero. -/
def HasZero (io : Io α) : Prop :=
  ∃ v n, io.Valid v ∧ io.write v = zeros n ∧ Decodes (io.read io.dflt) True (zeros n) v

/-- A value is read without all of its bytes, and those that are left are zero. -/
def LeavesZeros (io : Io α) : Prop :=
  ∃ v z, io.Valid v ∧ 0 < z ∧ Leaves (io.read io.dflt) (io.write v) v (zeros z)

lemma LeavesZeros.not_roundTrips {io : Io α} (h : io.LeavesZeros) : ¬ io.RoundTrips := by
  obtain ⟨v, z, hv, hz, hread⟩ := h
  intro hio
  have hnil := hread []
  rw [((hio v hv) []).1 trivial, Option.some.injEq, Prod.mk.injEq, List.append_nil] at hnil
  have hlen := congrArg List.length hnil.2
  simp [zeros] at hlen
  omega

end Io

/-! ### Scalars -/

lemma Mem.overwrite_ofFn {n : ℕ} (x v : Mem n) : x.overwrite 0 (List.ofFn v) = v := by
  funext i
  have h := Mem.overwrite_apply (x := x) (v := v) (o := 0) (c := n) (fun _ hj => absurd hj (Nat.not_lt_zero _)) i
    (by omega)
  rwa [List.drop_zero, List.take_of_length_le (by simp)] at h

lemma decodes_scalar {n : ℕ} {valid : Mem n → Prop} (x v : Mem n) :
    Decodes ((Io.scalar n valid).read x) True (List.ofFn v) v := by
  have h := (Decodes.recv (List.ofFn v)).map fun bs => x.overwrite 0 bs
  rwa [Mem.overwrite_ofFn, List.length_ofFn] at h

lemma roundTrips_scalar {n : ℕ} {valid : Mem n → Prop} : (Io.scalar n valid).RoundTrips :=
  fun v _ => decodes_scalar _ v

lemma hasZero_scalar {n : ℕ} {valid : Mem n → Prop} (hvalid : valid fun _ => 0) :
    (Io.scalar n valid).HasZero := by
  have hzeros : List.ofFn (fun _ : Fin n => (0 : UInt8)) = zeros n :=
    List.ext_getElem (by simp [zeros]) (by simp [zeros])
  exact ⟨fun _ => 0, n, hvalid, hzeros, hzeros ▸ decodes_scalar _ _⟩

lemma decodes_number {k n : ℕ} (hn : n < 256 ^ k) :
    Decodes (Stream.number Stream.recv k) True (leBytes k n) n :=
  Decodes.number Decodes.recv hn

lemma decodes_size {n : ℕ} (hn : n < 2 ^ 63) : Decodes Io.readSize True (Io.writeSize n) n :=
  decodes_number (Nat.lt_trans hn (by decide))

lemma hasZero_unit : Io.unit.HasZero := ⟨(), 0, trivial, rfl, Decodes.pure ()⟩

/-! ### Blocks -/

lemma resize_nil_left (n : ℕ) (d : α) : resize n d [] = List.replicate n d := by
  simp [resize]

/-- Of the elements, as many bytes are read as there are elements, and the others are zero. -/
lemma leaves_block (size : ℕ) (valid : Mem size → Prop) (bs : Bytes) (hbs : bs.length < 2 ^ 63)
    (left : Bytes) :
    Leaves ((Io.block size valid).read []) (Io.writeSize bs.length ++ (bs ++ left))
      (bs ++ (zeros (size * bs.length)).drop bs.length) left := by
  refine Leaves.bind (decodes_size hbs) ?_
  intro rest
  rw [List.append_assoc, bind_apply, recv_append, resize_nil_left]
  rfl

lemma roundTrips_block {valid : Mem 1 → Prop} : (Io.block 1 valid).RoundTrips := by
  rintro v ⟨-, hlt, -⟩
  have h := leaves_block 1 valid v hlt []
  have hdrop : (zeros (1 * v.length)).drop v.length = [] := by simp [zeros]
  rw [hdrop, List.append_nil, ← Nat.div_one v.length] at h
  exact h.decodes

lemma hasZero_block {size : ℕ} {valid : Mem size → Prop} : (Io.block size valid).HasZero := by
  have h := leaves_block size valid [] (by decide) []
  have hdrop : (zeros (size * ([] : Bytes).length)).drop ([] : Bytes).length = [] := by simp [zeros]
  refine ⟨[], 8, ⟨Nat.dvd_zero _, by simp, by simp [Io.elements]⟩, ?_, ?_⟩
  · simp [Io.block, Io.writeSize, leBytes_zero]
  · rw [hdrop, Io.writeSize, List.length_nil, leBytes_zero, List.append_nil] at h
    exact h.decodes

/-- One byte of a vector with one element is read. -/
lemma leavesZeros_block {size : ℕ} (hsize : 1 < size) (hlt : size < 2 ^ 63) {valid : Mem size → Prop}
    (hvalid : valid fun _ => 0) : (Io.block size valid).LeavesZeros := by
  have hlen : (zeros size).length = size := List.length_replicate
  have hdiv : size / size = 1 := Nat.div_self (Nat.lt_trans Nat.one_pos hsize)
  refine ⟨zeros size, size - 1, ⟨⟨1, by rw [hlen, Nat.mul_one]⟩, by rwa [hlen], ?_⟩, by omega, ?_⟩
  · intro e he
    rw [Io.elements, hlen, hdiv, List.mem_map] at he
    obtain ⟨i, -, rfl⟩ := he
    have hzero (j : Fin size) : ((zeros size)[size * i + j]?).getD 0 = 0 := by
      simp only [zeros, List.getElem?_replicate]
      split <;> rfl
    simpa only [hzero] using hvalid
  · have h := leaves_block size valid (zeros 1) (by decide) (zeros (size - 1))
    have hsplit : zeros 1 ++ zeros (size - 1) = zeros size := by
      rw [zeros_append, Nat.add_sub_cancel' (Nat.le_of_lt hsize)]
    have hone : (zeros 1).length = 1 := rfl
    have hdrop : (zeros (size * 1)).drop 1 = zeros (size - 1) := by simp [zeros]
    rw [hone, hdrop, hsplit] at h
    show Leaves _ (Io.writeSize ((zeros size).length / size) ++ zeros size) _ _
    rw [hlen, hdiv]
    exact h

/-! ### Pairs -/

section Pair

variable {a : Io α} {b : Io β}

lemma Io.RoundTrips.pair (h : a.RoundTrips) (h' : b.RoundTrips) : (a.pair b).RoundTrips := by
  rintro ⟨v, w⟩ ⟨hv, hw⟩
  exact (h v hv).bind_true ((h' w hw).map fun snd => (v, snd))

lemma Io.HasZero.pair (h : a.HasZero) (h' : b.HasZero) : (a.pair b).HasZero := by
  obtain ⟨v, m, hv, hwrite, hread⟩ := h
  obtain ⟨w, n, hw, hwrite', hread'⟩ := h'
  refine ⟨(v, w), m + n, ⟨hv, hw⟩, ?_, ?_⟩
  · simp only [Io.pair, hwrite, hwrite', zeros_append]
  · rw [← zeros_append]
    exact hread.bind_true (hread'.map fun snd => (v, snd))

lemma Io.LeavesZeros.pair_left (h : a.LeavesZeros) (h' : b.HasZero) : (a.pair b).LeavesZeros := by
  obtain ⟨v, z, hv, hz, hread⟩ := h
  obtain ⟨w, n, hw, hwrite, hread'⟩ := h'
  refine ⟨(v, w), z, ⟨hv, hw⟩, hz, ?_⟩
  simp only [Io.pair, hwrite]
  exact hread.bind_of_comm (hread'.map fun snd => (v, snd)) (zeros_append_comm z n)

lemma Io.LeavesZeros.pair_right (h : b.LeavesZeros) (h' : a.HasZero) : (a.pair b).LeavesZeros := by
  obtain ⟨w, z, hw, hz, hread⟩ := h
  obtain ⟨v, n, hv, hwrite, hread'⟩ := h'
  refine ⟨(v, w), z, ⟨hv, hw⟩, hz, ?_⟩
  simp only [Io.pair, hwrite]
  exact Leaves.bind hread' (hread.map fun snd => (v, snd))

end Pair

/-! ### Vectors -/

section Vector

variable {a : Io α}

lemma readElems_replicate (a : Io α) (n : ℕ) :
    Io.readElems a (List.replicate n a.dflt) = Stream.replicate n (a.read a.dflt) := by
  induction n with
  | zero => rfl
  | succ n ih => rw [List.replicate_succ, Io.readElems, ih, Stream.replicate]

lemma Io.RoundTrips.vector (h : a.RoundTrips) : (Io.vector a).RoundTrips := by
  rintro v ⟨hlt, hv⟩
  refine (decodes_size hlt).bind_true ?_
  show Decodes (Io.readElems a (resize v.length a.dflt [])) _ _ _
  rw [resize_nil_left, readElems_replicate]
  have helems := Decodes.replicate (P := fun _ => True) (g := id) fun e he => h e (hv e he)
  rw [List.map_id] at helems
  exact helems.congr (by simp)

lemma hasZero_vector : (Io.vector a).HasZero := by
  refine ⟨[], 8, ⟨by simp, by simp⟩, ?_, ?_⟩
  · simp [Io.vector, Io.writeSize, leBytes_zero]
  · rw [← leBytes_zero]
    have h : Decodes (Io.readElems a (resize 0 a.dflt [])) True [] [] := by
      rw [resize_nil_left]
      exact Decodes.pure []
    exact (decodes_size (by decide)).bind_true h

lemma Io.LeavesZeros.vector (h : a.LeavesZeros) : (Io.vector a).LeavesZeros := by
  obtain ⟨v, z, hv, hz, hread⟩ := h
  refine ⟨[v], z, Io.Resumes.vector_valid_singleton hv, hz, Leaves.bind (decodes_size (by simp)) ?_⟩
  show Leaves (Io.readElems a (resize 1 a.dflt [])) ([v].flatMap a.write) [v] (zeros z)
  rw [List.flatMap_singleton]
  exact hread.map fun e => [e]

end Vector

/-! ### Maps -/

section Map

variable {less : κ → κ → Bool} {a : Io κ} {b : Io α}

lemma decodes_entries (h : a.RoundTrips) (h' : b.RoundTrips) {es : List (κ × α)}
    (hes : ∀ e ∈ es, a.Valid e.1 ∧ b.Valid e.2) {m : List (κ × α)}
    (hsorted : (m ++ es).Pairwise fun e e' => less e.1 e'.1 ∧ ¬ less e'.1 e.1) :
    Decodes (Io.readEntries less a b es.length m) True
      (es.flatMap fun e => a.write e.1 ++ b.write e.2) (m ++ es) := by
  induction es generalizing m with
  | nil =>
    rw [List.append_nil]
    exact Decodes.pure m
  | cons e es ih =>
    obtain ⟨hk, ht⟩ := hes e List.mem_cons_self
    have hless : ∀ e' ∈ m, less e'.1 e.1 ∧ ¬ less e.1 e'.1 := fun e' he' =>
      (List.pairwise_append.mp hsorted).2.2 e' he' e List.mem_cons_self
    rw [List.append_cons m e es] at hsorted ⊢
    rw [List.flatMap_cons, List.append_assoc]
    refine (h e.1 hk).bind_true ((h' e.2 ht).bind_true ?_)
    rw [Io.Resumes.assign_of_forall_less hless]
    exact ih (fun e he => hes e (List.mem_cons_of_mem _ he)) hsorted

lemma Io.RoundTrips.map (h : a.RoundTrips) (h' : b.RoundTrips) : (Io.map less a b).RoundTrips :=
  fun _ hv => (decodes_size hv.1).bind_true (decodes_entries h h' hv.2.1 hv.2.2)

lemma hasZero_map : (Io.map less a b).HasZero := by
  refine ⟨[], 8, ⟨by simp, by simp, List.Pairwise.nil⟩, ?_, ?_⟩
  · simp [Io.map, Io.writeSize, leBytes_zero]
  · rw [← leBytes_zero]
    exact (decodes_size (by decide)).bind_true (Decodes.pure [])

lemma Io.LeavesZeros.map_key (h : a.LeavesZeros) (h' : b.HasZero) : (Io.map less a b).LeavesZeros := by
  obtain ⟨v, z, hv, hz, hread⟩ := h
  obtain ⟨w, n, hw, hwrite, hread'⟩ := h'
  refine ⟨[(v, w)], z, Io.Resumes.map_valid_singleton hv hw, hz, Leaves.bind (decodes_size (by simp)) ?_⟩
  show Leaves _ ([(v, w)].flatMap fun e => a.write e.1 ++ b.write e.2) _ _
  rw [List.flatMap_singleton, hwrite]
  exact hread.bind_of_comm (hread'.map fun t => [(v, t)]) (zeros_append_comm z n)

lemma Io.LeavesZeros.map_value (h : b.LeavesZeros) (h' : a.HasZero) : (Io.map less a b).LeavesZeros := by
  obtain ⟨w, z, hw, hz, hread⟩ := h
  obtain ⟨v, n, hv, hwrite, hread'⟩ := h'
  refine ⟨[(v, w)], z, Io.Resumes.map_valid_singleton hv hw, hz, Leaves.bind (decodes_size (by simp)) ?_⟩
  show Leaves _ ([(v, w)].flatMap fun e => a.write e.1 ++ b.write e.2) _ _
  rw [List.flatMap_singleton, hwrite]
  exact Leaves.bind hread' (hread.map fun t => [(v, t)])

end Map

/-! ### Structs and tuples -/

section Fields

variable {a : Io α} {fs : Fields ρ}

lemma roundTrips_struct_nil : (Io.struct .nil).RoundTrips := fun v _ => Decodes.pure v

lemma hasZero_struct_nil : (Io.struct .nil).HasZero := ⟨(), 0, trivial, rfl, Decodes.pure ()⟩

-- A struct is read and written like the pair of its first field and of the others.

lemma Io.RoundTrips.cons (h : a.RoundTrips) (h' : (Io.struct fs).RoundTrips) :
    (Io.struct (.cons a fs)).RoundTrips :=
  Io.RoundTrips.pair h h'

lemma Io.HasZero.cons (h : a.HasZero) (h' : (Io.struct fs).HasZero) : (Io.struct (.cons a fs)).HasZero :=
  Io.HasZero.pair h h'

lemma Io.LeavesZeros.cons_left (h : a.LeavesZeros) (h' : (Io.struct fs).HasZero) :
    (Io.struct (.cons a fs)).LeavesZeros :=
  Io.LeavesZeros.pair_left h h'

lemma Io.LeavesZeros.cons_right (h : (Io.struct fs).LeavesZeros) (h' : a.HasZero) :
    (Io.struct (.cons a fs)).LeavesZeros :=
  Io.LeavesZeros.pair_right h h'

lemma Io.RoundTrips.tuple (h : (Io.struct fs).RoundTrips) : (Io.tuple fs).RoundTrips :=
  fun v hv => h v hv.2

lemma Io.HasZero.tuple (h : (Io.struct fs).HasZero) (hcount : fs.count < 2 ^ 64) : (Io.tuple fs).HasZero := by
  obtain ⟨v, n, hv, hread⟩ := h
  exact ⟨v, n, ⟨hcount, hv⟩, hread⟩

lemma Io.LeavesZeros.tuple (h : (Io.struct fs).LeavesZeros) (hcount : fs.count < 2 ^ 64) :
    (Io.tuple fs).LeavesZeros := by
  obtain ⟨v, z, hv, hread⟩ := h
  exact ⟨v, z, ⟨hcount, hv⟩, hread⟩

end Fields

/-! ### Variants -/

def Ctors.RoundTrips (cs : Ctors γ) : Prop :=
  ∀ p, cs.Valid p → ∃ r, cs.read (cs.tag p) = some r ∧ Decodes r True (cs.write p) p

def Ctors.LeavesZeros (cs : Ctors γ) : Prop :=
  ∃ p z r, cs.Valid p ∧ 0 < z ∧ cs.read (cs.tag p) = some r ∧ Leaves r (cs.write p) p (zeros z)

section Ctors

variable {a : Io α} {cs : Ctors γ}

lemma Ctors.RoundTrips.nil : Ctors.nil.RoundTrips := fun p => p.elim

lemma Ctors.RoundTrips.cons (h : a.RoundTrips) (h' : cs.RoundTrips) : (cs.cons a).RoundTrips := by
  rintro (v | p) hv
  · exact ⟨_, rfl, (h v hv).map Sum.inl⟩
  · obtain ⟨r, hr, hread⟩ := h' p hv
    refine ⟨do let p ← r; return .inr p, ?_, hread.map Sum.inr⟩
    simp [Ctors.cons, hr]

lemma Ctors.LeavesZeros.cons_left (h : a.LeavesZeros) : (cs.cons a).LeavesZeros := by
  obtain ⟨v, z, hv, hz, hread⟩ := h
  exact ⟨.inl v, z, _, hv, hz, rfl, hread.map Sum.inl⟩

lemma Ctors.LeavesZeros.cons_right (h : cs.LeavesZeros) : (cs.cons a).LeavesZeros := by
  obtain ⟨p, z, r, hp, hz, hr, hread⟩ := h
  refine ⟨.inr p, z, do let p ← r; return .inr p, hp, hz, ?_, hread.map Sum.inr⟩
  simp [Ctors.cons, hr]

lemma Io.RoundTrips.variant (h : cs.RoundTrips) : (Io.variant cs).RoundTrips := by
  rintro v ⟨p, rfl, htag, hp⟩
  obtain ⟨r, hr, hread⟩ := h p hp
  refine (decodes_number htag).bind_true ?_
  rw [hr]
  exact hread.map some

lemma Io.HasZero.variant (h : a.HasZero) : (Io.variant (cs.cons a)).HasZero := by
  obtain ⟨v, n, hv, hwrite, hread⟩ := h
  refine ⟨some (.inl v), 4 + n, ⟨.inl v, rfl, by simp [Ctors.cons], hv⟩, ?_, ?_⟩
  · rw [← zeros_append, ← leBytes_zero, ← hwrite]
    rfl
  · rw [← zeros_append, ← leBytes_zero]
    exact (decodes_number (by decide)).bind_true ((hread.map Sum.inl).map some)

lemma Io.LeavesZeros.variant (h : cs.LeavesZeros) (htag : ∀ p, cs.tag p < 256 ^ 4) :
    (Io.variant cs).LeavesZeros := by
  obtain ⟨p, z, r, hp, hz, hr, hread⟩ := h
  refine ⟨some p, z, ⟨p, rfl, htag p, hp⟩, hz, Leaves.bind (decodes_number (htag p)) ?_⟩
  rw [hr]
  exact hread.map some

end Ctors

/-! ### Types -/

section Types

variable (less : (t : Ty) → t.Val → t.Val → Bool)

mutual

lemma Ty.roundTrips (t : Ty) (ht : t.narrow) : (t.io less).RoundTrips := by
  match t with
  | .scalar _ => exact roundTrips_scalar
  | .unit => exact fun v _ => Decodes.pure v
  | .string => exact roundTrips_block
  | .block s =>
    have hsize : s.size = 1 := of_decide_eq_true ht
    show (Io.block s.size s.Valid).RoundTrips
    generalize s.Valid = valid
    revert valid
    rw [hsize]
    exact fun _ => roundTrips_block
  | .variant t ts =>
    rw [Ty.narrow, Bool.and_eq_true] at ht
    exact Io.RoundTrips.variant (.cons (Ty.roundTrips t ht.1) (ctors_roundTrips ts ht.2))
  | .pair a b =>
    rw [Ty.narrow, Bool.and_eq_true] at ht
    exact (Ty.roundTrips a ht.1).pair (Ty.roundTrips b ht.2)
  | .vector t => exact (Ty.roundTrips t ht).vector
  | .map k t =>
    rw [Ty.narrow, Bool.and_eq_true] at ht
    exact (Ty.roundTrips k ht.1).map (Ty.roundTrips t ht.2)
  | .struct ts => exact fields_roundTrips ts ht
  | .tuple ts => exact (fields_roundTrips ts ht).tuple
  | .typeAlias _ t => exact Ty.roundTrips t ht

lemma fields_roundTrips (ts : List Ty) (hts : allNarrow ts) : (Io.struct (fieldsIo less ts)).RoundTrips := by
  match ts with
  | [] => exact roundTrips_struct_nil
  | t :: ts =>
    rw [allNarrow, Bool.and_eq_true] at hts
    exact (Ty.roundTrips t hts.1).cons (fields_roundTrips ts hts.2)

lemma ctors_roundTrips (ts : List Ty) (hts : allNarrow ts) : (ctorsIo less ts).RoundTrips := by
  match ts with
  | [] => exact .nil
  | t :: ts =>
    rw [allNarrow, Bool.and_eq_true] at hts
    exact .cons (Ty.roundTrips t hts.1) (ctors_roundTrips ts hts.2)

end

mutual

lemma Ty.hasZero (t : Ty) (ht : t.WellFormed) : (t.io less).HasZero := by
  match t with
  | .scalar s => exact hasZero_scalar (s.valid_zero ht)
  | .unit => exact hasZero_unit
  | .string | .block _ => exact hasZero_block
  | .variant t ts => exact (Ty.hasZero t ht.2.2.2.1).variant
  | .pair a b => exact (Ty.hasZero a ht.1).pair (Ty.hasZero b ht.2)
  | .vector _ => exact hasZero_vector
  | .map _ _ => exact hasZero_map
  | .struct ts => exact fields_hasZero ts ht
  | .tuple ts => exact (fields_hasZero ts ht.2).tuple (by rw [count_fieldsIo less]; exact ht.1)
  | .typeAlias _ t => exact Ty.hasZero t ht

lemma fields_hasZero (ts : List Ty) (hts : AllWellFormed ts) : (Io.struct (fieldsIo less ts)).HasZero := by
  match ts with
  | [] => exact hasZero_struct_nil
  | t :: ts => exact (Ty.hasZero t hts.1).cons (fields_hasZero ts hts.2)

end

lemma tag_lt_length (ts : List Ty) (p : payloadVal ts) : (ctorsIo less ts).tag p < ts.length := by
  induction ts with
  | nil => exact p.elim
  | cons t ts ih =>
    match p with
    | .inl _ => exact Nat.succ_pos _
    | .inr p => exact Nat.succ_lt_succ (ih p)

lemma Scalar.size_lt (s : Scalar) : s.size < 2 ^ 63 := by
  cases s <;> simp [Scalar.size]

mutual

lemma Ty.leavesZeros (t : Ty) (ht : t.WellFormed) (hnarrow : t.narrow = false) :
    (t.io less).LeavesZeros := by
  match t with
  | .block s =>
    have hsize : s.size ≠ 1 := of_decide_eq_false hnarrow
    exact leavesZeros_block (Nat.lt_of_le_of_ne s.size_pos (Ne.symm hsize)) s.size_lt (s.valid_zero ht)
  | .variant t ts =>
    obtain ⟨hcount, -, -, ht, hts⟩ := ht
    have htag (p : t.Val ⊕ payloadVal ts) : ((ctorsIo less ts).cons (t.io less)).tag p < 256 ^ 4 :=
      Nat.lt_trans (tag_lt_length less (t :: ts) p) hcount
    rw [Ty.narrow, Bool.and_eq_false_iff] at hnarrow
    rcases hnarrow with h | h
    · exact Io.LeavesZeros.variant (.cons_left (Ty.leavesZeros t ht h)) htag
    · exact Io.LeavesZeros.variant (.cons_right (ctors_leavesZeros ts hts h)) htag
  | .pair a b =>
    rw [Ty.narrow, Bool.and_eq_false_iff] at hnarrow
    rcases hnarrow with h | h
    · exact (Ty.leavesZeros a ht.1 h).pair_left (Ty.hasZero less b ht.2)
    · exact (Ty.leavesZeros b ht.2 h).pair_right (Ty.hasZero less a ht.1)
  | .vector t => exact (Ty.leavesZeros t ht hnarrow).vector
  | .map k t =>
    rw [Ty.narrow, Bool.and_eq_false_iff] at hnarrow
    rcases hnarrow with h | h
    · exact (Ty.leavesZeros k ht.1 h).map_key (Ty.hasZero less t ht.2)
    · exact (Ty.leavesZeros t ht.2 h).map_value (Ty.hasZero less k ht.1)
  | .struct ts => exact fields_leavesZeros ts ht hnarrow
  | .tuple ts =>
    exact (fields_leavesZeros ts ht.2 hnarrow).tuple (by rw [count_fieldsIo less]; exact ht.1)
  | .typeAlias _ t => exact Ty.leavesZeros t ht hnarrow

lemma fields_leavesZeros (ts : List Ty) (hts : AllWellFormed ts) (hnarrow : allNarrow ts = false) :
    (Io.struct (fieldsIo less ts)).LeavesZeros := by
  match ts with
  | t :: ts =>
    rw [allNarrow, Bool.and_eq_false_iff] at hnarrow
    rcases hnarrow with h | h
    · exact (Ty.leavesZeros t hts.1 h).cons_left (fields_hasZero less ts hts.2)
    · exact (fields_leavesZeros ts hts.2 h).cons_right (Ty.hasZero less t hts.1)

lemma ctors_leavesZeros (ts : List Ty) (hts : AllWellFormed ts) (hnarrow : allNarrow ts = false) :
    (ctorsIo less ts).LeavesZeros := by
  match ts with
  | t :: ts =>
    rw [allNarrow, Bool.and_eq_false_iff] at hnarrow
    rcases hnarrow with h | h
    · exact .cons_left (Ty.leavesZeros t hts.1 h)
    · exact .cons_right (ctors_leavesZeros ts hts.2 h)

end

lemma Ty.roundTrips_iff {t : Ty} (ht : t.WellFormed) : (t.io less).RoundTrips ↔ t.narrow := by
  constructor
  · intro h
    by_contra hnarrow
    rw [Bool.not_eq_true] at hnarrow
    exact (Ty.leavesZeros less t ht hnarrow).not_roundTrips h
  · exact Ty.roundTrips less t

end Types

end Hobbes.Net
