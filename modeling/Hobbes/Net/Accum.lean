import Hobbes.Net.Io

/-!
# What is accumulated

What `accum` leaves in a value and in its state when the bytes of another value have come in, by whatever
pieces they come. It depends on what was there before.
-/

namespace Hobbes.Net

open Core Machine

variable {α β γ κ ρ : Type}

/-- The state and the value `x` when `v` has been accumulated. -/
structure Io.Resumes (io : Io α) where
  result : io.State → α → α → io.State × α
  prepare_prepare : ∀ o, io.prepare (io.prepare o) = io.prepare o
  proceeds : ∀ o x v, io.Valid v →
    io.accum.Proceeds (io.prepare o, x) (io.write v) (result o x v)

/-- The states and the fields when `i` fields have been accumulated, and the bytes that are left. -/
structure Fields.Resumes (fs : Fields ρ) where
  result : ℕ → fs.States → ρ → ρ → fs.States × ρ
  bytes : ℕ → ρ → Bytes
  prepare_prepare : ∀ o, fs.prepare (fs.prepare o) = fs.prepare o
  result_zero : ∀ o x v, result 0 o x v = (fs.prepare o, x)
  bytes_zero : ∀ v, bytes 0 v = fs.write v
  bytes_count : ∀ v, bytes fs.count v = []
  accumAt_count : ∀ i, fs.count ≤ i → ∀ s k inp, fs.accumAt i s k inp = some (true, s, inp)
  proceeds : ∀ o x v, fs.Valid v → ∀ i < fs.count, ∃ bs, bytes i v = bs ++ bytes (i + 1) v ∧
    (fs.accumAt i).Proceeds (result i o x v) bs (result (i + 1) o x v)

/-- The state and the payload when a payload has been accumulated. -/
structure Ctors.Resumes (cs : Ctors γ) where
  result : γ → cs.State × γ
  proceeds : ∀ p, cs.Valid p → ∃ s, cs.start (cs.tag p) = some s ∧
    cs.accum.Proceeds s (cs.write p) (result p)

/-- A state that is prepared twice makes no difference. -/
lemma Io.Resumes.result_prepare {io : Io α} (hio : io.Resumes) (o : io.State) (x : α) {v : α}
    (hv : io.Valid v) : hio.result (io.prepare o) x v = hio.result o x v := by
  have h := hio.proceeds (io.prepare o) x v hv
  rw [hio.prepare_prepare] at h
  exact h.completes.unique (hio.proceeds o x v hv).completes

/-! ### Scalars -/

def Mem.ofBytes {n : ℕ} (bs : Bytes) (h : bs.length = n) : Mem n :=
  fun i => bs.get (i.cast h.symm)

/-- The memory of a number. -/
def Mem.ofNat (n x : ℕ) : Mem n := Mem.ofBytes (leBytes n x) (leBytes_length n x)

lemma Mem.ofFn_ofNat (n x : ℕ) : List.ofFn (Mem.ofNat n x) = leBytes n x := by
  refine List.ext_getElem (by simp) fun i _ _ => ?_
  simp [Mem.ofNat, Mem.ofBytes]

lemma Mem.toNat_ofNat {n x : ℕ} (hx : x < 256 ^ n) : (Mem.ofNat n x).toNat = x := by
  rw [Mem.toNat, Mem.ofFn_ofNat, leNat_leBytes, Nat.mod_eq_of_lt hx]

lemma recvDataPartial_append {bs : Bytes} {o : ℕ} (ho : o < bs.length) (k : ℕ) (rest : Bytes) :
    recvDataPartial (bs.length - o) k (bs.drop o ++ rest) =
      some ((bs.drop o).take (min k (bs.length - o)),
        bs.drop (o + min k (bs.length - o)) ++ rest) := by
  have hle : min k (bs.length - o) ≤ (bs.drop o).length := by
    rw [List.length_drop]
    exact Nat.min_le_right _ _
  rw [recvDataPartial, if_neg (by omega), List.take_append_of_le_length hle,
    List.drop_append_of_le_length hle, List.drop_drop]

lemma Mem.overwrite_apply {n : ℕ} {x v : Mem n} {o c : ℕ} (hx : ∀ i : Fin n, i.1 < o → x i = v i)
    (i : Fin n) (hi : i.1 < o + c) :
    x.overwrite o (((List.ofFn v).drop o).take c) i = v i := by
  rw [Mem.overwrite]
  split
  · next hlt => exact hx i hlt
  · have hget : (((List.ofFn v).drop o).take c)[i.1 - o]? = some (v i) := by
      rw [List.getElem?_take_of_lt (by omega), List.getElem?_drop, Nat.add_sub_cancel' (by omega)]
      simp
    rw [hget, Option.getD_some]

lemma Mem.overwrite_nil {n : ℕ} (x : Mem n) (o : ℕ) : x.overwrite o [] = x := by
  funext i
  simp [Mem.overwrite]

lemma proceeds_scalar {n : ℕ} (hn : 0 < n) (x v : Mem n) :
    (Io.accumScalar n).Proceeds (0, x) (List.ofFn v) (n, v) := by
  have hlen : (List.ofFn v).length = n := List.length_ofFn
  have hfill : (Io.accumScalar n).Proceeds (0, x) ((List.ofFn v).drop 0) (n, v) := by
    refine proceeds_fill (P := fun o s => s.1 = o ∧ ∀ i : Fin n, i.1 < o → s.2 i = v i) ?_ ?_
      ⟨rfl, fun _ hi => absurd hi (Nat.not_lt_zero _)⟩ (by rwa [hlen])
    · rintro _ ⟨o, y⟩ ⟨rfl, hy⟩ ho k rest
      have hrecv := recvDataPartial_append ho k rest
      simp only [hlen] at hrecv ho ⊢
      refine ⟨(o + min k (n - o), y.overwrite o (((List.ofFn v).drop o).take (min k (n - o)))), _, rfl,
        ?_, ⟨rfl, fun i hi => Mem.overwrite_apply hy i hi⟩, ?_⟩
      · have htake : (((List.ofFn v).drop o).take (min k (n - o))).length = min k (n - o) := by
          simp [hlen]
        simp [Io.accumScalar, hrecv, htake]
      · rintro rfl
        simp [Mem.overwrite_nil]
    · rintro ⟨_, y⟩ ⟨rfl, hy⟩
      rw [hlen] at hy ⊢
      exact Prod.ext rfl (funext fun i => hy i i.2)
  rwa [List.drop_zero] at hfill

/-- A length or a tag is received into a field. -/
lemma proceeds_number {n : ℕ} (hn : 0 < n) (m : Mem n) (x : ℕ) :
    (Io.accumScalar n).Proceeds (0, m) (leBytes n x) (n, Mem.ofNat n x) := by
  rw [← Mem.ofFn_ofNat]
  exact proceeds_scalar hn m (Mem.ofNat n x)

def Io.Resumes.scalar {n : ℕ} {valid : Mem n → Prop} (hn : 0 < n) : (Io.scalar n valid).Resumes where
  result _ _ v := (n, v)
  prepare_prepare _ := rfl
  proceeds _ x v _ := proceeds_scalar hn x v

def Io.Resumes.unit : Io.unit.Resumes where
  result o _ v := (o, v)
  prepare_prepare _ := rfl
  proceeds _ _ _ _ := .of_call fun _ _ => rfl

/-! ### Blocks -/

lemma calls_accumBlock (size : ℕ) {o : Io.BlockState} (x : Bytes) (ho : o.readLen) :
    (Io.accumBlock size).Calls (Io.accumScalar 8) (fun l => ({ o with lenS := l.1, len := l.2 }, x))
      fun l => (0 == size * l.2.toNat, (⟨false, l.1, l.2, 0, size * l.2.toNat⟩,
        resize (size * l.2.toNat) 0 x)) := by
  rintro ⟨lenS, len⟩ k inp
  rw [Io.accumBlock, if_pos ho]
  cases Io.accumScalar 8 (lenS, len) k inp with
  | none => rfl
  | some r =>
    obtain ⟨done, ⟨lenS, len⟩, inp⟩ := r
    cases done <;> rfl

/-- The bytes behind the length of a vector. -/
lemma proceeds_block (size lenS : ℕ) (len : Mem 8) {x v : Bytes} (hx : x.length = v.length)
    (hv : 0 < v.length) :
    (Io.accumBlock size).Proceeds (⟨false, lenS, len, 0, v.length⟩, x) v
      (⟨false, lenS, len, v.length, v.length⟩, v) := by
  have hfill : (Io.accumBlock size).Proceeds (⟨false, lenS, len, 0, v.length⟩, x) (v.drop 0)
      (⟨false, lenS, len, v.length, v.length⟩, v) := by
    refine proceeds_fill (P := fun o s => s.1 = ⟨false, lenS, len, o, v.length⟩ ∧
      s.2.length = v.length ∧ s.2.take o = v.take o) ?_ ?_ ⟨rfl, hx, by simp⟩ hv
    · rintro o ⟨_, y⟩ ⟨rfl, hlen, htake⟩ ho k rest
      have hrecv := recvDataPartial_append ho k rest
      have hbs : ((v.drop o).take (min k (v.length - o))).length = min k (v.length - o) := by simp
      have hle : min k (v.length - o) ≤ v.length - o := Nat.min_le_right _ _
      generalize hc : min k (v.length - o) = c at hrecv hbs hle ⊢
      have hlength : (y.take o ++ (v.drop o).take c).length = o + c := by
        simp only [List.length_append, List.length_take, List.length_drop, hlen]
        omega
      refine ⟨(⟨false, lenS, len, o + c, v.length⟩, y.take o ++ (v.drop o).take c ++ y.drop (o + c)),
        c, rfl, by simp [Io.accumBlock, hrecv, hbs], ⟨rfl, ?_, ?_⟩, ?_⟩
      · rw [List.length_append, hlength, List.length_drop, hlen]
        omega
      · show (y.take o ++ (v.drop o).take c ++ y.drop (o + c)).take (o + c) = v.take (o + c)
        rw [← hlength, List.take_left, hlength, htake, List.take_add]
      · rintro rfl
        obtain rfl : 0 = c := by rwa [Nat.zero_min] at hc
        simp
    · rintro ⟨_, y⟩ ⟨rfl, hlen, htake⟩
      simp only at hlen htake
      rw [List.take_length, ← hlen, List.take_length] at htake
      rw [htake]
  rwa [List.drop_zero] at hfill

lemma length_resize (n : ℕ) (d : α) (x : List α) : (resize n d x).length = n := by
  simp only [resize, List.length_append, List.length_take, List.length_replicate]
  omega

lemma resize_nil (d : α) (x : List α) : resize 0 d x = [] := by
  simp [resize]

def Io.Resumes.block {size : ℕ} {valid : Mem size → Prop} : (Io.block size valid).Resumes where
  result _ _ v := (⟨false, 8, Mem.ofNat 8 (v.length / size), v.length, v.length⟩, v)
  prepare_prepare _ := rfl
  proceeds o x v hv := by
    obtain ⟨hdvd, hlt, -⟩ := hv
    have hn : (Mem.ofNat 8 (v.length / size)).toNat = v.length / size :=
      Mem.toNat_ofNat (Nat.lt_of_le_of_lt (Nat.div_le_self _ _) (Nat.lt_trans hlt (by decide)))
    have hlen : size * (Mem.ofNat 8 (v.length / size)).toNat = v.length := by
      rw [hn, Nat.mul_div_cancel' hdvd]
    have hcalls := calls_accumBlock size (o := { o with readLen := true, lenS := 0 }) x rfl
    have hnumber := proceeds_number (by decide) o.len (v.length / size)
    rcases Nat.eq_zero_or_pos v.length with hzero | hpos
    · have h := hcalls.proceeds hnumber (by rw [hlen, hzero]; rfl)
      rw [hlen, hzero, resize_nil] at h
      obtain rfl := List.eq_nil_of_length_eq_zero hzero
      simpa [Io.block, Io.writeSize] using h
    · have hblock := proceeds_block size 8 (Mem.ofNat 8 (v.length / size))
        (length_resize v.length 0 x) hpos
      refine hcalls.proceeds_then hnumber ?_ ?_
      · rw [hlen]
        simpa using Nat.ne_of_lt hpos
      · rw [hlen]
        exact hblock

/-! ### Pairs -/

section Pair

variable {σ τ : Type} (f : Machine (σ × α)) (g : Machine (τ × β))

lemma calls_accumPair_fst (τ₀ : τ) (y : β) :
    (Io.accumPair f g).Calls f (fun s => (⟨true, s.1, τ₀⟩, s.2, y))
      fun s => (false, (⟨false, s.1, τ₀⟩, s.2, y)) := by
  rintro ⟨o, x⟩ k inp
  simp only [Io.accumPair]
  cases f (o, x) k inp with
  | none => rfl
  | some r =>
    obtain ⟨done, ⟨o, x⟩, inp⟩ := r
    cases done <;> rfl

lemma calls_accumPair_snd (σ₀ : σ) (x : α) :
    (Io.accumPair f g).Calls g (fun s => (⟨false, σ₀, s.1⟩, x, s.2))
      fun s => (true, (⟨false, σ₀, s.1⟩, x, s.2)) := by
  rintro ⟨o, y⟩ k inp
  simp only [Io.accumPair]
  cases g (o, y) k inp with
  | none => rfl
  | some r =>
    obtain ⟨done, ⟨o, y⟩, inp⟩ := r
    cases done <;> rfl

end Pair

def Io.Resumes.pair {a : Io α} {b : Io β} (ha : a.Resumes) (hb : b.Resumes) : (a.pair b).Resumes where
  result o x v :=
    let fst := ha.result o.fstState x.1 v.1
    let snd := hb.result o.sndState x.2 v.2
    (⟨false, fst.1, snd.1⟩, fst.2, snd.2)
  prepare_prepare o := by
    simp only [Io.pair, ha.prepare_prepare, hb.prepare_prepare]
  proceeds o x v hv :=
    (calls_accumPair_fst a.accum b.accum (b.prepare o.sndState) x.2).proceeds_then
      (ha.proceeds o.fstState x.1 v.1 hv.1) rfl
      ((calls_accumPair_snd a.accum b.accum _ _).proceeds
        (hb.proceeds o.sndState x.2 v.2 hv.2) rfl)

/-! ### Vectors -/

/-- The elements one after the other, with the one state for all of them. -/
def resultElems {σ : Type} (result : σ → α → α → σ × α) : σ → List α → List α → σ × List α
  | o, x :: xs, v :: vs =>
    let e := result o x v
    let es := resultElems result e.1 xs vs
    (es.1, e.2 :: es.2)
  | o, xs, _ => (o, xs)

lemma calls_accumVector_len (a : Io α) {o : Io.VectorState a.State} (x : List α) (ho : o.readLen) :
    (Io.accumVector a).Calls (Io.accumScalar 8) (fun l => ({ o with lenS := l.1, len := l.2 }, x))
      fun l => (0 == (resize l.2.toNat a.dflt x).length,
        (⟨false, l.1, l.2, 0, a.prepare o.elemS⟩, resize l.2.toNat a.dflt x)) := by
  rintro ⟨lenS, len⟩ k inp
  rw [Io.accumVector, if_pos ho]
  cases Io.accumScalar 8 (lenS, len) k inp with
  | none => rfl
  | some r =>
    obtain ⟨done, ⟨lenS, len⟩, inp⟩ := r
    cases done <;> rfl

lemma calls_accumVector_elem (a : Io α) (lenS : ℕ) (len : Mem 8) (ys xs : List α) :
    (Io.accumVector a).Calls a.accum
      (fun s => (⟨false, lenS, len, ys.length, s.1⟩, ys ++ s.2 :: xs))
      fun s => (ys.length + 1 == (ys ++ s.2 :: xs).length,
        (⟨false, lenS, len, ys.length + 1, a.prepare s.1⟩, ys ++ s.2 :: xs)) := by
  rintro ⟨o, x⟩ k inp
  have hget : (ys ++ x :: xs)[ys.length]? = some x := by simp
  simp only [Io.accumVector, hget, Bool.false_eq_true, if_false, Option.bind_eq_bind,
    Option.bind_some]
  cases a.accum (o, x) k inp with
  | none => rfl
  | some r =>
    obtain ⟨done, ⟨o, x⟩, inp⟩ := r
    cases done <;> simp

lemma proceeds_elems {a : Io α} (ha : a.Resumes) (lenS : ℕ) (len : Mem 8) {vs : List α}
    (hvs : ∀ v ∈ vs, a.Valid v) (hne : vs ≠ []) (o : a.State) (ys : List α) {xs : List α}
    (hlen : xs.length = vs.length) :
    (Io.accumVector a).Proceeds (⟨false, lenS, len, ys.length, a.prepare o⟩, ys ++ xs)
      (vs.flatMap a.write)
      (⟨false, lenS, len, ys.length + vs.length, a.prepare (resultElems ha.result o xs vs).1⟩,
        ys ++ (resultElems ha.result o xs vs).2) := by
  induction vs generalizing o ys xs with
  | nil => exact absurd rfl hne
  | cons v vs ih =>
    obtain ⟨x, xs, rfl⟩ := List.exists_cons_of_length_eq_add_one hlen
    have hcalls := calls_accumVector_elem a lenS len ys xs
    have hv := ha.proceeds o x v (hvs v List.mem_cons_self)
    rw [List.length_cons, List.length_cons, Nat.add_right_cancel_iff] at hlen
    rw [List.flatMap_cons]
    by_cases hvs' : vs = []
    · subst hvs'
      obtain rfl := List.eq_nil_of_length_eq_zero hlen
      have h := hcalls.proceeds hv (by simp)
      simpa [resultElems] using h
    · have hpos := List.length_pos_iff.mpr hvs'
      have hnext (e : α) : (ys.length + 1 == (ys ++ e :: xs).length) = false :=
        beq_false_of_ne (by rw [List.length_append, List.length_cons]; omega)
      refine hcalls.proceeds_then hv (hnext _) ?_
      have h := ih (fun v hv => hvs v (List.mem_cons_of_mem _ hv)) hvs' (ha.result o x v).1
        (ys ++ [(ha.result o x v).2]) hlen
      simpa [resultElems, Nat.add_assoc, Nat.add_comm 1] using h

def Io.Resumes.vector {a : Io α} (ha : a.Resumes) : (Io.vector a).Resumes where
  result o x v :=
    let es := resultElems ha.result o.elemS (resize v.length a.dflt x) v
    (⟨false, 8, Mem.ofNat 8 v.length, v.length, a.prepare es.1⟩, es.2)
  prepare_prepare _ := rfl
  proceeds o x v hv := by
    have hn : (Mem.ofNat 8 v.length).toNat = v.length := Mem.toNat_ofNat (Nat.lt_trans hv.1 (by decide))
    have hcalls := calls_accumVector_len a (o := { o with readLen := true, lenS := 0 }) x rfl
    have hnumber := proceeds_number (by decide) o.len v.length
    by_cases hnil : v = []
    · subst hnil
      have h := hcalls.proceeds hnumber (by rw [hn, length_resize]; rfl)
      rw [hn] at h
      simpa [Io.vector, Io.writeSize, resultElems, resize_nil] using h
    · have hpos := List.length_pos_iff.mpr hnil
      refine hcalls.proceeds_then hnumber ?_ ?_
      · rw [hn, length_resize]
        exact beq_false_of_ne (Nat.ne_of_lt hpos)
      · have h := proceeds_elems ha 8 (Mem.ofNat 8 v.length) hv.2 hnil o.elemS []
          (length_resize v.length a.dflt x)
        rw [List.length_nil, Nat.zero_add, List.nil_append, List.nil_append] at h
        rw [hn]
        exact h

/-! ### Maps -/

/-- The last key and value that were accumulated, with their states. -/
structure Temps (σ τ κ α : Type) where
  kS : σ
  k : κ
  tS : τ
  t : α

/-- The entries one after the other, with the one key and the one value for all of them. -/
def resultEntries {σ τ : Type} (less : κ → κ → Bool) (resultK : σ → κ → κ → σ × κ)
    (resultT : τ → α → α → τ × α) :
    Temps σ τ κ α → List (κ × α) → List (κ × α) → Temps σ τ κ α × List (κ × α)
  | o, m, [] => (o, m)
  | o, m, e :: es =>
    let k := resultK o.kS o.k e.1
    let t := resultT o.tS o.t e.2
    resultEntries less resultK resultT ⟨k.1, k.2, t.1, t.2⟩ (Io.assign less k.2 t.2 m) es

section Map

variable (less : κ → κ → Bool) (a : Io κ) (b : Io α)

lemma calls_accumMap_len {o : Io.MapState a.State b.State κ α} (x : List (κ × α))
    (ho : o.readS = .lenS) :
    (Io.accumMap less a b).Calls (Io.accumScalar 8)
      (fun l => ({ o with lenS := l.1, lenBytes := l.2 }, x))
      fun l => (l.2.toNat == 0,
        (⟨.kS, l.1, l.2, l.2.toNat, a.prepare o.kS, o.k, o.tS, o.t⟩, x)) := by
  rintro ⟨lenS, len⟩ k inp
  simp only [Io.accumMap, ho]
  cases Io.accumScalar 8 (lenS, len) k inp with
  | none => rfl
  | some r =>
    obtain ⟨done, ⟨lenS, len⟩, inp⟩ := r
    cases done <;> rfl

lemma calls_accumMap_key (lenS : ℕ) (lenBytes : Mem 8) (len : ℕ) (tS : b.State) (t : α)
    (x : List (κ × α)) :
    (Io.accumMap less a b).Calls a.accum
      (fun s => (⟨.kS, lenS, lenBytes, len + 1, s.1, s.2, tS, t⟩, x))
      fun s => (false, (⟨.tS, lenS, lenBytes, len + 1, s.1, s.2, b.prepare tS, t⟩, x)) := by
  rintro ⟨o, k⟩ n inp
  simp only [Io.accumMap]
  cases a.accum (o, k) n inp with
  | none => rfl
  | some r =>
    obtain ⟨done, ⟨o, k⟩, inp⟩ := r
    cases done <;> rfl

lemma calls_accumMap_value (lenS : ℕ) (lenBytes : Mem 8) (len : ℕ) (kS : a.State) (k : κ)
    (x : List (κ × α)) :
    (Io.accumMap less a b).Calls b.accum
      (fun s => (⟨.tS, lenS, lenBytes, len + 1, kS, k, s.1, s.2⟩, x))
      fun s => (len == 0, (⟨.kS, lenS, lenBytes, len, a.prepare kS, k, s.1, s.2⟩,
        Io.assign less k s.2 x)) := by
  rintro ⟨o, t⟩ n inp
  simp only [Io.accumMap]
  cases b.accum (o, t) n inp with
  | none => rfl
  | some r =>
    obtain ⟨done, ⟨o, t⟩, inp⟩ := r
    cases done <;> rfl

variable {a b}

lemma proceeds_entries (ha : a.Resumes) (hb : b.Resumes) (lenS : ℕ) (lenBytes : Mem 8)
    {es : List (κ × α)} (hes : ∀ e ∈ es, a.Valid e.1 ∧ b.Valid e.2) (hne : es ≠ [])
    (o : Temps a.State b.State κ α) (x : List (κ × α)) :
    let r := resultEntries less ha.result hb.result o x es
    (Io.accumMap less a b).Proceeds
      (⟨.kS, lenS, lenBytes, es.length, a.prepare o.kS, o.k, o.tS, o.t⟩, x)
      (es.flatMap fun e => a.write e.1 ++ b.write e.2)
      (⟨.kS, lenS, lenBytes, 0, a.prepare r.1.kS, r.1.k, r.1.tS, r.1.t⟩, r.2) := by
  induction es generalizing o x with
  | nil => exact absurd rfl hne
  | cons e es ih =>
    obtain ⟨hk, ht⟩ := hes e List.mem_cons_self
    rw [List.flatMap_cons, List.append_assoc]
    refine (calls_accumMap_key less a b lenS lenBytes es.length o.tS o.t x).proceeds_then
      (ha.proceeds o.kS o.k e.1 hk) rfl ?_
    have hvalue := calls_accumMap_value less a b lenS lenBytes es.length
      (ha.result o.kS o.k e.1).1 (ha.result o.kS o.k e.1).2 x
    by_cases hnil : es = []
    · subst hnil
      rw [List.flatMap_nil, List.append_nil]
      exact hvalue.proceeds (hb.proceeds o.tS o.t e.2 ht) rfl
    · refine hvalue.proceeds_then (hb.proceeds o.tS o.t e.2 ht) ?_
        (ih (fun e he => hes e (List.mem_cons_of_mem _ he)) hnil ⟨_, _, _, _⟩ _)
      exact beq_false_of_ne (Nat.pos_iff_ne_zero.mp (List.length_pos_iff.mpr hnil))

end Map

def Io.Resumes.map (less : κ → κ → Bool) {a : Io κ} {b : Io α} (ha : a.Resumes) (hb : b.Resumes) :
    (Io.map less a b).Resumes where
  result o x v :=
    let r := resultEntries less ha.result hb.result ⟨o.kS, o.k, o.tS, o.t⟩ x v
    (⟨.kS, 8, Mem.ofNat 8 v.length, 0, a.prepare r.1.kS, r.1.k, r.1.tS, r.1.t⟩, r.2)
  prepare_prepare _ := rfl
  proceeds o x v hv := by
    have hn : (Mem.ofNat 8 v.length).toNat = v.length := Mem.toNat_ofNat (Nat.lt_trans hv.1 (by decide))
    have hcalls := calls_accumMap_len less a b (o := { o with readS := .lenS, lenS := 0 }) x rfl
    have hnumber := proceeds_number (by decide) o.lenBytes v.length
    by_cases hnil : v = []
    · subst hnil
      have h := hcalls.proceeds hnumber (by rw [hn]; rfl)
      rw [hn] at h
      simpa [Io.map, Io.writeSize, resultEntries] using h
    · refine hcalls.proceeds_then hnumber ?_ ?_
      · rw [hn]
        exact beq_false_of_ne (Nat.pos_iff_ne_zero.mp (List.length_pos_iff.mpr hnil))
      · rw [hn]
        exact proceeds_entries less ha hb 8 _ hv.2.1 hnil ⟨o.kS, o.k, o.tS, o.t⟩ x

/-! ### Fields -/

lemma calls_accumAt_zero (a : Io α) (fs : Fields ρ) (o : fs.States) (y : ρ) :
    ((fs.cons a).accumAt 0).Calls a.accum (fun s => ((s.1, o), (s.2, y)))
      fun s => (true, ((s.1, o), (s.2, y))) := by
  rintro ⟨σ, x⟩ k inp
  simp only [Fields.cons]
  cases a.accum (σ, x) k inp with
  | none => rfl
  | some r =>
    obtain ⟨done, ⟨σ, x⟩, inp⟩ := r
    cases done <;> rfl

lemma calls_accumAt_succ (a : Io α) (fs : Fields ρ) (i : ℕ) (o : a.State) (x : α) :
    ((fs.cons a).accumAt (i + 1)).Calls (fs.accumAt i) (fun s => ((o, s.1), (x, s.2)))
      fun s => (true, ((o, s.1), (x, s.2))) := by
  rintro ⟨σ, y⟩ k inp
  simp only [Fields.cons]
  cases fs.accumAt i (σ, y) k inp with
  | none => rfl
  | some r =>
    obtain ⟨done, ⟨σ, y⟩, inp⟩ := r
    cases done <;> rfl

def Fields.Resumes.nil : Fields.nil.Resumes where
  result _ o x _ := (o, x)
  bytes _ _ := []
  prepare_prepare _ := rfl
  result_zero _ _ _ := rfl
  bytes_zero _ := rfl
  bytes_count _ := rfl
  accumAt_count _ _ _ _ _ := rfl
  proceeds _ _ _ _ i hi := absurd hi (Nat.not_lt_zero i)

def Fields.Resumes.cons {a : Io α} {fs : Fields ρ} (ha : a.Resumes) (hfs : fs.Resumes) :
    (fs.cons a).Resumes where
  result
    | 0, o, x, _ => ((a.prepare o.1, fs.prepare o.2), x)
    | i + 1, o, x, v =>
      let e := ha.result o.1 x.1 v.1
      let es := hfs.result i o.2 x.2 v.2
      ((e.1, es.1), (e.2, es.2))
  bytes
    | 0, v => a.write v.1 ++ fs.write v.2
    | i + 1, v => hfs.bytes i v.2
  prepare_prepare o := by
    simp only [Fields.cons, ha.prepare_prepare, hfs.prepare_prepare]
  result_zero _ _ _ := rfl
  bytes_zero _ := rfl
  bytes_count v := hfs.bytes_count v.2
  accumAt_count i hi s k inp := by
    obtain ⟨i, rfl⟩ := Nat.exists_eq_add_of_lt (Nat.lt_of_lt_of_le (Nat.succ_pos _) hi)
    rw [Nat.zero_add] at hi ⊢
    simp only [Fields.cons, hfs.accumAt_count i (Nat.le_of_succ_le_succ hi), Option.bind_eq_bind,
      Option.bind_some]
    rfl
  proceeds
    | o, x, v, hv, 0, _ => by
      refine ⟨a.write v.1, congrArg _ (hfs.bytes_zero v.2).symm, ?_⟩
      have h := (calls_accumAt_zero a fs (fs.prepare o.2) x.2).proceeds
        (ha.proceeds o.1 x.1 v.1 hv.1) rfl
      simpa only [hfs.result_zero] using h
    | o, x, v, hv, i + 1, hi => by
      obtain ⟨bs, hbs, h⟩ := hfs.proceeds o.2 x.2 v.2 hv.2 i (Nat.lt_of_succ_lt_succ hi)
      exact ⟨bs, hbs, (calls_accumAt_succ a fs i _ _).proceeds h rfl⟩

/-! ### Structs -/

lemma calls_struct (fs : Fields ρ) {i : ℕ} (hi : i < fs.count) :
    (Io.struct fs).accum.Calls (fs.accumAt i) (fun s => ((i + 1, s.1), s.2))
      fun s => (i + 1 + 1 == fs.count + 1, ((i + 1 + 1, s.1), s.2)) := by
  rintro ⟨o, x⟩ k inp
  have hrange : 1 ≤ i + 1 ∧ i + 1 ≤ fs.count := ⟨Nat.succ_pos i, hi⟩
  simp only [Io.struct, if_pos hrange, Nat.add_sub_cancel]
  cases fs.accumAt i (o, x) k inp with
  | none => rfl
  | some r =>
    obtain ⟨done, ⟨o, x⟩, inp⟩ := r
    cases done with
    | true => rfl
    | false => simp [Nat.ne_of_lt hi]

lemma proceeds_struct {fs : Fields ρ} (hfs : fs.Resumes) (o : fs.States) (x : ρ) {v : ρ}
    (hv : fs.Valid v) (n : ℕ) {i : ℕ} (hi : i + n + 1 = fs.count) :
    (Io.struct fs).accum.Proceeds ((i + 1, (hfs.result i o x v).1), (hfs.result i o x v).2)
      (hfs.bytes i v)
      ((fs.count + 1, (hfs.result fs.count o x v).1), (hfs.result fs.count o x v).2) := by
  induction n generalizing i with
  | zero =>
    obtain ⟨bs, hbs, h⟩ := hfs.proceeds o x v hv i (by omega)
    obtain rfl : bs = hfs.bytes i v := by
      rw [hbs, show i + 1 = fs.count from hi, hfs.bytes_count, List.append_nil]
    have h := (calls_struct fs (by omega)).proceeds h (by simp; omega)
    rwa [← show i + 1 = fs.count from hi]
  | succ n ih =>
    obtain ⟨bs, hbs, h⟩ := hfs.proceeds o x v hv i (by omega)
    rw [hbs]
    exact (calls_struct fs (by omega)).proceeds_then h (beq_false_of_ne (by omega))
      (ih (by omega))

def Io.Resumes.struct {fs : Fields ρ} (hfs : fs.Resumes) : (Io.struct fs).Resumes where
  result o x v :=
    let r := hfs.result fs.count o.2 x v
    ((fs.count + 1, r.1), r.2)
  prepare_prepare o := by
    simp only [Io.struct, hfs.prepare_prepare]
  proceeds o x v hv := by
    rcases Nat.eq_zero_or_pos fs.count with hzero | hpos
    · have hbytes : (Io.struct fs).write v = [] := by
        have h := hfs.bytes_count v
        rwa [hzero, hfs.bytes_zero] at h
      rw [hbytes, hzero, hfs.result_zero]
      exact .of_call fun k inp => by simp [Io.struct, hzero]
    · have h := proceeds_struct hfs o.2 x hv (fs.count - 1) (i := 0) (by omega)
      rw [hfs.result_zero, hfs.bytes_zero] at h
      exact h

/-! ### Tuples -/

lemma calls_tuple (fs : Fields ρ) {i : ℕ} (hi : i < fs.count) (hcount : fs.count < 2 ^ 64) :
    (Io.tuple fs).accum.Calls (fs.accumAt i) (fun s => ((BitVec.ofNat 64 i, s.1), s.2))
      fun s => (i + 1 == fs.count, ((BitVec.ofNat 64 (i + 1), s.1), s.2)) := by
  have heq {j : ℕ} (hj : j ≤ fs.count) :
      (BitVec.ofNat 64 j == BitVec.ofNat 64 fs.count) = (j == fs.count) := by
    rw [Bool.eq_iff_iff, beq_iff_eq, beq_iff_eq, ← BitVec.toNat_inj, BitVec.toNat_ofNat,
      BitVec.toNat_ofNat, Nat.mod_eq_of_lt hcount, Nat.mod_eq_of_lt (by omega)]
  rintro ⟨o, x⟩ k inp
  have htoNat : (BitVec.ofNat 64 i).toNat = i := by
    rw [BitVec.toNat_ofNat, Nat.mod_eq_of_lt (by omega)]
  simp only [Io.tuple, htoNat]
  cases fs.accumAt i (o, x) k inp with
  | none => rfl
  | some r =>
    obtain ⟨done, ⟨o, x⟩, inp⟩ := r
    cases done with
    | true => simp [← heq hi, BitVec.ofNat_add]
    | false => simp [heq (Nat.le_of_lt hi), Nat.ne_of_lt hi]

lemma proceeds_tuple {fs : Fields ρ} (hfs : fs.Resumes) (hcount : fs.count < 2 ^ 64) (o : fs.States)
    (x : ρ) {v : ρ} (hv : fs.Valid v) (n : ℕ) {i : ℕ} (hi : i + n + 1 = fs.count) :
    (Io.tuple fs).accum.Proceeds
      ((BitVec.ofNat 64 i, (hfs.result i o x v).1), (hfs.result i o x v).2) (hfs.bytes i v)
      ((BitVec.ofNat 64 fs.count, (hfs.result fs.count o x v).1), (hfs.result fs.count o x v).2) := by
  induction n generalizing i with
  | zero =>
    obtain ⟨bs, hbs, h⟩ := hfs.proceeds o x v hv i (by omega)
    obtain rfl : bs = hfs.bytes i v := by
      rw [hbs, show i + 1 = fs.count from hi, hfs.bytes_count, List.append_nil]
    have h := (calls_tuple fs (by omega) hcount).proceeds h (by simp; omega)
    rwa [← show i + 1 = fs.count from hi]
  | succ n ih =>
    obtain ⟨bs, hbs, h⟩ := hfs.proceeds o x v hv i (by omega)
    rw [hbs]
    exact (calls_tuple fs (by omega) hcount).proceeds_then h (beq_false_of_ne (by omega))
      (ih (by omega))

/-- Without fields, every call counts on until the count is 0 again. -/
lemma proceeds_tuple_nil {fs : Fields ρ} (hfs : fs.Resumes) (hzero : fs.count = 0) (o : fs.States)
    (x : ρ) (n : ℕ) {i : BitVec 64} (hi : i.toNat + n + 1 = 2 ^ 64) :
    (Io.tuple fs).accum.Proceeds ((i, o), x) [] ((0, o), x) := by
  induction n generalizing i with
  | zero =>
    have hwrap : i + 1#64 = 0#64 := by bv_omega
    exact .of_call fun k inp => by
      simp [Io.tuple, hfs.accumAt_count _ (hzero ▸ Nat.zero_le _), hwrap, hzero]
  | succ n ih =>
    have hnext : (i + 1#64).toNat = i.toNat + 1 := by bv_omega
    refine .call (fun k inp => ?_) (ih (i := i + 1#64) (by omega))
    have hne : i + 1#64 ≠ 0#64 := by bv_omega
    simp [Io.tuple, hfs.accumAt_count _ (hzero ▸ Nat.zero_le _), hne, hzero]

def Io.Resumes.tuple {fs : Fields ρ} (hfs : fs.Resumes) : (Io.tuple fs).Resumes where
  result o x v :=
    let r := hfs.result fs.count o.2 x v
    ((BitVec.ofNat 64 fs.count, r.1), r.2)
  prepare_prepare o := by
    simp only [Io.tuple, hfs.prepare_prepare]
  proceeds o x v hv := by
    obtain ⟨hcount, hv⟩ := hv
    rcases Nat.eq_zero_or_pos fs.count with hzero | hpos
    · have hbytes : (Io.tuple fs).write v = [] := by
        have h := hfs.bytes_count v
        rwa [hzero, hfs.bytes_zero] at h
      rw [hbytes, hzero, hfs.result_zero]
      exact proceeds_tuple_nil hfs hzero (fs.prepare o.2) x (2 ^ 64 - 1) (by simp)
    · have h := proceeds_tuple hfs hcount o.2 x hv (fs.count - 1) (i := 0) (by omega)
      rw [hfs.result_zero, hfs.bytes_zero] at h
      exact h

/-! ### Variants -/

lemma calls_accum_inl (a : Io α) (cs : Ctors γ) :
    (cs.cons a).accum.Calls a.accum (fun s => (.inl s.1, .inl s.2))
      fun s => (true, (.inl s.1, .inl s.2)) := by
  rintro ⟨o, x⟩ k inp
  simp only [Ctors.cons]
  cases a.accum (o, x) k inp with
  | none => rfl
  | some r =>
    obtain ⟨done, ⟨o, x⟩, inp⟩ := r
    cases done <;> rfl

lemma calls_accum_inr (a : Io α) (cs : Ctors γ) :
    (cs.cons a).accum.Calls cs.accum (fun s => (.inr s.1, .inr s.2))
      fun s => (true, (.inr s.1, .inr s.2)) := by
  rintro ⟨o, x⟩ k inp
  simp only [Ctors.cons]
  cases cs.accum (o, x) k inp with
  | none => rfl
  | some r =>
    obtain ⟨done, ⟨o, x⟩, inp⟩ := r
    cases done <;> rfl

def Ctors.Resumes.nil : Ctors.nil.Resumes where
  result p := p.elim
  proceeds p := p.elim

def Ctors.Resumes.cons {a : Io α} {cs : Ctors γ} (ha : a.Resumes) (hcs : cs.Resumes) :
    (cs.cons a).Resumes where
  result
    | .inl v =>
      let r := ha.result a.initState a.dflt v
      (.inl r.1, .inl r.2)
    | .inr p =>
      let r := hcs.result p
      (.inr r.1, .inr r.2)
  proceeds
    | .inl v, hv =>
      ⟨(.inl (a.prepare a.initState), .inl a.dflt), rfl,
        (calls_accum_inl a cs).proceeds (ha.proceeds a.initState a.dflt v hv) rfl⟩
    | .inr p, hp => by
      obtain ⟨s, hstart, h⟩ := hcs.proceeds p hp
      refine ⟨(.inr s.1, .inr s.2), ?_, (calls_accum_inr a cs).proceeds h rfl⟩
      simp [Ctors.cons, hstart]

lemma calls_accumVariant_tag (cs : Ctors γ) {o : Io.VariantState cs.State} (x : Option γ)
    (ho : o.readTag) :
    (Io.accumVariant cs).Calls (Io.accumScalar 4) (fun l => ({ o with tagS := l.1, tag := l.2 }, x))
      fun l => (false, (⟨false, l.1, l.2, (cs.start l.2.toNat).map Prod.fst⟩,
        (cs.start l.2.toNat).map Prod.snd)) := by
  rintro ⟨tagS, tag⟩ k inp
  simp only [Io.accumVariant, ho, if_true]
  cases Io.accumScalar 4 (tagS, tag) k inp with
  | none => rfl
  | some r =>
    obtain ⟨done, ⟨tagS, tag⟩, inp⟩ := r
    cases done <;> rfl

lemma calls_accumVariant_payload (cs : Ctors γ) (tagS : ℕ) (tag : Mem 4) :
    (Io.accumVariant cs).Calls cs.accum (fun s => (⟨false, tagS, tag, some s.1⟩, some s.2))
      fun s => (true, (⟨false, tagS, tag, some s.1⟩, some s.2)) := by
  rintro ⟨o, p⟩ k inp
  simp only [Io.accumVariant, Bool.false_eq_true, if_false]
  cases cs.accum (o, p) k inp with
  | none => rfl
  | some r =>
    obtain ⟨done, ⟨o, p⟩, inp⟩ := r
    cases done <;> rfl

def Io.Resumes.variant {cs : Ctors γ} (hcs : cs.Resumes) : (Io.variant cs).Resumes where
  result
    | o, x, none => (o, x)
    | _, _, some p =>
      let r := hcs.result p
      (⟨false, 4, Mem.ofNat 4 (cs.tag p), some r.1⟩, some r.2)
  prepare_prepare _ := rfl
  proceeds o x v hv := by
    obtain ⟨p, rfl, htag, hp⟩ := hv
    obtain ⟨s, hstart, h⟩ := hcs.proceeds p hp
    have hn : (Mem.ofNat 4 (cs.tag p)).toNat = cs.tag p := Mem.toNat_ofNat htag
    refine (calls_accumVariant_tag cs (o := { o with readTag := true, tagS := 0 }) x rfl).proceeds_then
      (proceeds_number (by decide) o.tag (cs.tag p)) rfl ?_
    rw [hn, hstart]
    exact (calls_accumVariant_payload cs 4 _).proceeds h rfl

end Hobbes.Net
