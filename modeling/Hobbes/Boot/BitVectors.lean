import Hobbes.Boot.Arrays
import Hobbes.Core.Lists
import Hobbes.Regex.BitTable
import Mathlib.Algebra.Order.Ring.Int
import Mathlib.Data.Nat.Cast.Order.Ring
import Mathlib.Logic.Function.Basic

/-!
# Filters

An array is filtered through a bit vector. Its bits are packed eight to a byte, behind a byte for the number of bits
modulo eight.
-/

namespace Hobbes.Boot

open Core

variable {α β : Type*}

/-- `data bitvec = [byte]` -/
abbrev Bitvec := List (BitVec 8)

def newArray (n : ℤ) : Option (Slots α) := if 0 ≤ n then some (Slots.alloc n.toNat) else none

def tl2b (i : ℤ) : BitVec 8 := BitVec.ofInt 8 i

/-- A byte has no result of a shift by eight bits or more, as it does below. -/
def bshl (x k : BitVec 8) : Option (BitVec 8) := if k.toNat < 8 then some (x <<< k.toNat) else none

def bashr (x k : BitVec 8) : Option (BitVec 8) := if k.toNat < 8 then some (x.sshiftRight k.toNat) else none

def bvInit (bs : Slots (BitVec 8)) (i : ℕ) (x : BitVec 8) : Option (Slots (BitVec 8)) :=
  Slots.fill (fun _ => some x) bs i i bs.length

def newBitvec (n : ℤ) : Option Bitvec :=
  let t := n.tmod 8
  (newArray (1 + (n.tdiv 8 + if t > 0 then 1 else 0))).bind fun r =>
    (r.write 0 (tl2b t)).bind fun r => (bvInit r 1 0x00).bind Slots.elems

def bvLength (bv : Bitvec) : Option ℤ :=
  bv[0]?.map fun t => 8 * ((bv.length : ℤ) - 1) - if t = 0x00 then 0 else 8 - (t.toNat : ℤ)

def bvIsSet (bv : Bitvec) (i : ℤ) : Option Bool :=
  let bi := 1 + i.tdiv 8
  let bj := tl2b (i.tmod 8)
  (index bv bi).bind fun b => (bashr b bj).map fun b => b &&& 0x01 == 0x01

def bvSet (bv : Bitvec) (i : ℤ) (x : Bool) : Option Bitvec :=
  let bi := 1 + i.tdiv 8
  let bj := tl2b (i.tmod 8)
  (index bv bi).bind fun ob => (bshl 0x01 bj).bind fun m => put bv bi.toNat (if x then ob ||| m else ob &&& ~~~m)

def wherePs (p : α → Bool) (xs : List α) (i : ℕ) (bv : Bitvec) : Option Bitvec :=
  if i = xs.length then some bv
  else if xs.length < i then none
  else xs[i]?.bind fun x => (bvSet bv i (p x)).bind fun bv => wherePs p xs (i + 1) bv
termination_by xs.length - i

def whereP (p : α → Bool) (xs : List α) : Option Bitvec := (newBitvec xs.length).bind fun bv => wherePs p xs 0 bv

/-- For every byte the number of its bits that are set, two numbers to a byte. -/
def nybBCounts : List (BitVec 8) :=
  [0x01, 0x12, 0x12, 0x23, 0x12, 0x23, 0x23, 0x34, 0x12, 0x23, 0x23, 0x34, 0x23, 0x34, 0x34, 0x45,
   0x12, 0x23, 0x23, 0x34, 0x23, 0x34, 0x34, 0x45, 0x23, 0x34, 0x34, 0x45, 0x34, 0x45, 0x45, 0x56,
   0x12, 0x23, 0x23, 0x34, 0x23, 0x34, 0x34, 0x45, 0x23, 0x34, 0x34, 0x45, 0x34, 0x45, 0x45, 0x56,
   0x23, 0x34, 0x34, 0x45, 0x34, 0x45, 0x45, 0x56, 0x34, 0x45, 0x45, 0x56, 0x45, 0x56, 0x56, 0x67,
   0x12, 0x23, 0x23, 0x34, 0x23, 0x34, 0x34, 0x45, 0x23, 0x34, 0x34, 0x45, 0x34, 0x45, 0x45, 0x56,
   0x23, 0x34, 0x34, 0x45, 0x34, 0x45, 0x45, 0x56, 0x34, 0x45, 0x45, 0x56, 0x45, 0x56, 0x56, 0x67,
   0x23, 0x34, 0x34, 0x45, 0x34, 0x45, 0x45, 0x56, 0x34, 0x45, 0x45, 0x56, 0x45, 0x56, 0x56, 0x67,
   0x34, 0x45, 0x45, 0x56, 0x45, 0x56, 0x56, 0x67, 0x45, 0x56, 0x56, 0x67, 0x56, 0x67, 0x67, 0x78]

def bvCount8 (b : BitVec 8) : Option ℤ :=
  let n := b.toNat
  nybBCounts[n / 2]?.bind fun nc =>
    (if n % 2 = 0 then bashr nc 0x04 else some (nc &&& 0x0f)).map fun c => (c.toNat : ℤ)

def counts (s : α → Option ℤ) (c : ℤ) (xs : List α) (i : ℕ) : Option ℤ :=
  if i = xs.length then some c
  else if xs.length < i then none
  else xs[i]?.bind fun x => (s x).bind fun n => counts s (c + n) xs (i + 1)
termination_by xs.length - i

/-- The loop that writes `f(i)` for every bit `i` that is set. -/
def whereStep (f : ℤ → Option β) (bv : Bitvec) (i e : ℤ) (r : Slots β) (j : ℕ) : Option (Slots β) :=
  if i = e then some r
  else if e < i then none
  else
    (bvIsSet bv i).bind fun isSet =>
      if isSet then (f i).bind fun x => (r.write j x).bind fun r => whereStep f bv (i + 1) e r (j + 1)
      else whereStep f bv (i + 1) e r j
termination_by (e - i).toNat

def whereBs (bv : Bitvec) (i e : ℤ) (ns : Slots ℤ) (j : ℕ) : Option (Slots ℤ) := whereStep some bv i e ns j

def whereB (bv : Bitvec) : Option (List ℤ) :=
  (bvLength bv).bind fun e => (counts bvCount8 0 bv 1).bind fun n => (newArray n).bind fun ns =>
    (whereBs bv 0 e ns 0).bind Slots.elems

def selectBStep (xs : List α) (idxs : Bitvec) (i e : ℤ) (r : Slots α) (j : ℕ) : Option (Slots α) :=
  whereStep (index xs) idxs i e r j

def selectB (xs : List α) (idxs : Bitvec) : Option (List α) :=
  (bvLength idxs).bind fun e => (counts bvCount8 0 idxs 1).bind fun n => (newArray n).bind fun r =>
    (selectBStep xs idxs 0 e r 0).bind Slots.elems

def filter (p : α → Bool) (xs : List α) : Option (List α) := (whereP p xs).bind fun bv => selectB xs bv

def ffilterArrStep (p : α → Bool) (xs : List α) (i : ℕ) (bv : Bitvec) : Option Bitvec := wherePs p xs i bv

/-- `[f(x) | x <- xs, p(x)]` -/
def ffilterMap (p : α → Bool) (f : α → Option β) (xs : List α) : Option (List β) :=
  (newBitvec xs.length).bind fun bv => (ffilterArrStep p xs 0 bv).bind fun bv => (selectB xs bv).bind fun ys =>
    fmap f ys

/-! ### The bits of the bytes -/

def byteBits (b : BitVec 8) : List Bool := (List.range 8).map b.getLsbD

@[simp] lemma length_byteBits (b : BitVec 8) : (byteBits b).length = 8 := by
  rw [byteBits, List.length_map, List.length_range]

lemma byteBits_zero : byteBits 0x00 = List.replicate 8 false := by decide

lemma toNat_tl2b {j : ℕ} (hj : j < 8) : (tl2b j).toNat = j := by
  rw [tl2b, BitVec.ofInt_natCast, BitVec.toNat_ofNat, Nat.mod_eq_of_lt (by omega)]

lemma bashr_bit (b : BitVec 8) {j : ℕ} (hj : j < 8) :
    (bashr b (tl2b j)).map (fun b => b &&& 0x01 == 0x01) = (byteBits b)[j]? := by
  have hlow (x : BitVec 8) : (x &&& 0x01 == 0x01) = x.getLsbD 0 := by
    have hone : (0x01 : BitVec 8) = BitVec.twoPow 8 0 := rfl
    rw [hone, BitVec.and_twoPow]
    cases x.getLsbD 0 <;> rfl
  rw [bashr, toNat_tl2b hj, if_pos hj, Option.map_some, hlow, BitVec.getLsbD_sshiftRight, if_pos (by omega),
    byteBits, List.getElem?_map, List.getElem?_range hj, Option.map_some, Nat.add_zero]
  rfl

lemma bshl_one {j : ℕ} (hj : j < 8) : bshl 0x01 (tl2b j) = some (1#8 <<< j) := by
  rw [bshl, toNat_tl2b hj, if_pos hj]
  rfl

lemma byteBits_setBit (b : BitVec 8) {j : ℕ} (hj : j < 8) (x : Bool) :
    byteBits (if x then b ||| 1#8 <<< j else b &&& ~~~(1#8 <<< j)) = (byteBits b).set j x := by
  refine List.ext_getElem? fun i => ?_
  rw [byteBits, byteBits, List.getElem?_set, List.getElem?_map, List.getElem?_map, List.length_map, List.length_range]
  by_cases hi : i < 8
  · rw [List.getElem?_range hi, Option.map_some, Option.map_some]
    have hbit := Regex.BitTable.getLsbD_setBit hj hi x b
    rw [Regex.BitTable.setBit] at hbit
    rw [hbit]
    rcases eq_or_ne j i with rfl | hne
    · rw [if_pos rfl, if_pos rfl, if_pos hj]
    · rw [if_neg hne, if_neg hne.symm]
  · rw [List.getElem?_eq_none (by rw [List.length_range]; omega), Option.map_none, Option.map_none, if_neg (by omega)]

lemma bvCount8_eq : ∀ b : BitVec 8, bvCount8 b = some ((byteBits b).count true : ℤ) := by
  decide +kernel

/-! ### What a bit vector holds -/

/-- `bv` has `n` bits, the values of `b`. The rest of its last byte is clear. -/
def HasBits (bv : Bitvec) (n : ℕ) (b : ℕ → Bool) : Prop :=
  ∃ (bytes : List (BitVec 8)) (pad : ℕ), bv = BitVec.ofNat 8 (n % 8) :: bytes ∧ pad < 8 ∧
    bytes.flatMap byteBits = (List.range n).map b ++ List.replicate pad false

lemma index_cons (b : BitVec 8) (bytes : List (BitVec 8)) (i : ℕ) :
    index (b :: bytes) (1 + (i : ℤ).tdiv 8) = bytes[i / 8]? := by
  have hpos : 1 + (i : ℤ).tdiv 8 = ((i / 8 + 1 : ℕ) : ℤ) := by
    rw [Int.natCast_tdiv_eq_ediv]
    omega
  rw [hpos, index_natCast, List.getElem?_cons_succ]

lemma tmod_eight (i : ℕ) : (i : ℤ).tmod 8 = ((i % 8 : ℕ) : ℤ) := (Int.ofNat_tmod i 8).symm

lemma counts_drop {s : α → Option ℤ} {g : α → ℕ} (hs : ∀ x, s x = some (g x : ℤ)) {xs : List α} {i : ℕ} {c : ℤ}
    (hi : i ≤ xs.length) : counts s c xs i = some (c + (((xs.drop i).map g).sum : ℕ)) := by
  rw [counts]
  rcases Nat.eq_or_lt_of_le hi with rfl | hlt
  · rw [if_pos rfl, List.drop_length]
    exact congrArg some (add_zero c).symm
  · rw [if_neg hlt.ne, if_neg (by omega), List.getElem?_eq_getElem hlt, Option.bind_some, hs, Option.bind_some,
      counts_drop hs hlt, List.drop_eq_getElem_cons hlt, List.map_cons, List.sum_cons, Nat.cast_add, add_assoc]
termination_by xs.length - i

namespace HasBits

variable {bv : Bitvec} {n i : ℕ} {b : ℕ → Bool}

lemma length_bytes {bytes : List (BitVec 8)} {pad : ℕ}
    (h : bytes.flatMap byteBits = (List.range n).map b ++ List.replicate pad false) : bytes.length * 8 = n + pad := by
  rw [← length_flatMap_of_length length_byteBits, h, List.length_append, List.length_map, List.length_range,
    List.length_replicate]

lemma bvLength_eq (h : HasBits bv n b) : bvLength bv = some (n : ℤ) := by
  obtain ⟨bytes, pad, rfl, hpad, hbits⟩ := h
  have hlen := length_bytes hbits
  have ht : (BitVec.ofNat 8 (n % 8)).toNat = n % 8 := by
    rw [BitVec.toNat_ofNat, Nat.mod_eq_of_lt (by omega)]
  have hzero : BitVec.ofNat 8 (n % 8) = 0x00 ↔ n % 8 = 0 := by
    rw [← BitVec.toNat_inj, ht]
    rfl
  rw [bvLength, List.getElem?_cons_zero, Option.map_some, ht, List.length_cons]
  simp only [hzero]
  split_ifs <;> exact congrArg some (by omega)

/-- The byte of a bit. -/
lemma exists_byte {bytes : List (BitVec 8)} {pad : ℕ}
    (h : bytes.flatMap byteBits = (List.range n).map b ++ List.replicate pad false) (hi : i < n) :
    ∃ byte, bytes[i / 8]? = some byte ∧ (byteBits byte)[i % 8]? = some (b i) := by
  have hbit := getElem?_flatMap_of_length length_byteBits (by decide) bytes i
  rw [h, List.getElem?_append_left (by rwa [List.length_map, List.length_range]), List.getElem?_map,
    List.getElem?_range hi, Option.map_some] at hbit
  exact Option.bind_eq_some_iff.mp hbit.symm

lemma bvIsSet_eq (h : HasBits bv n b) (hi : i < n) : bvIsSet bv i = some (b i) := by
  obtain ⟨bytes, pad, rfl, hpad, hbits⟩ := h
  obtain ⟨byte, hbyte, hbit⟩ := exists_byte hbits hi
  simp only [bvIsSet]
  rw [index_cons, hbyte, Option.bind_some, tmod_eight, bashr_bit byte (Nat.mod_lt i (by decide)), hbit]

/-- Setting a bit changes no other. -/
lemma bvSet_spec (h : HasBits bv n b) (hi : i < n) (x : Bool) :
    ∃ bv', bvSet bv i x = some bv' ∧ HasBits bv' n (Function.update b i x) := by
  obtain ⟨bytes, pad, rfl, hpad, hbits⟩ := h
  obtain ⟨byte, hbyte, -⟩ := exists_byte hbits hi
  have hj : i % 8 < 8 := Nat.mod_lt i (by decide)
  have hlt : i / 8 < bytes.length := (List.getElem?_eq_some_iff.mp hbyte).1
  have hbi : (1 + (i : ℤ).tdiv 8).toNat = i / 8 + 1 := by
    rw [Int.natCast_tdiv_eq_ediv]
    omega
  refine ⟨BitVec.ofNat 8 (n % 8) ::
    bytes.set (i / 8) (if x then byte ||| 1#8 <<< (i % 8) else byte &&& ~~~(1#8 <<< (i % 8))), ?_, _, pad, rfl, hpad,
    ?_⟩
  · simp only [bvSet]
    rw [index_cons, hbyte, Option.bind_some, tmod_eight, bshl_one hj, Option.bind_some, hbi,
      put_of_lt (by rw [List.length_cons]; omega), List.set_cons_succ]
  · rw [set_flatMap_of_length length_byteBits hbyte hj (byteBits_setBit byte hj x), hbits, Nat.div_add_mod',
      List.set_append_left _ _ (by rwa [List.length_map, List.length_range])]
    congr 1
    refine List.ext_getElem? fun q => ?_
    rw [List.getElem?_set, List.getElem?_map, List.getElem?_map, List.length_map, List.length_range]
    rcases eq_or_ne i q with rfl | hne
    · rw [if_pos rfl, if_pos hi, List.getElem?_range hi, Option.map_some, Function.update_self]
    · rw [if_neg hne]
      rcases lt_or_ge q n with hq | hq
      · rw [List.getElem?_range hq, Option.map_some, Option.map_some, Function.update_of_ne hne.symm]
      · rw [List.getElem?_eq_none (by rwa [List.length_range]), Option.map_none, Option.map_none]

/-- The count over whole bytes counts the bits that are set. -/
lemma counts_eq (h : HasBits bv n b) : counts bvCount8 0 bv 1 = some (((List.range n).filter b).length : ℤ) := by
  obtain ⟨bytes, pad, rfl, hpad, hbits⟩ := h
  have hcount : (bytes.map fun byte => (byteBits byte).count true).sum = ((List.range n).filter b).length := by
    have hfalse : (List.replicate pad false).count true = 0 := List.count_eq_zero.mpr fun hmem =>
      Bool.noConfusion (List.eq_of_mem_replicate hmem)
    have hsum := congrArg (List.count true) hbits
    rw [List.count_flatMap, List.count_append, hfalse, Nat.add_zero, List.count_eq_countP, List.countP_map,
      List.countP_eq_length_filter] at hsum
    refine hsum.trans (congrArg List.length (List.filter_congr fun q _ => ?_))
    rw [Function.comp_apply, beq_true]
  rw [counts_drop bvCount8_eq (Nat.le_add_left 1 _), List.drop_succ_cons, List.drop_zero, zero_add, hcount]

end HasBits

/-- A new bit vector has no bits set. -/
lemma newBitvec_spec (n : ℕ) : ∃ bv, newBitvec n = some bv ∧ HasBits bv n fun _ => false := by
  have hnew : (newArray (1 + ((n : ℤ).tdiv 8 + if (n : ℤ).tmod 8 > 0 then 1 else 0)) : Option (Slots (BitVec 8))) =
      some (Slots.alloc ((n + 7) / 8 + 1)) := by
    have hsize : (1 + ((n : ℤ).tdiv 8 + if (n : ℤ).tmod 8 > 0 then 1 else 0)).toNat = (n + 7) / 8 + 1 := by
      rw [Int.natCast_tdiv_eq_ediv, tmod_eight]
      split_ifs <;> omega
    rw [newArray, if_pos (by omega), hsize]
  have hwrite := Slots.write_filledTo [] ((n + 7) / 8) (tl2b ((n % 8 : ℕ) : ℤ))
  have hfill := @Slots.fill_filledTo _ (fun _ => some (0x00 : BitVec 8)) [tl2b ((n % 8 : ℕ) : ℤ)]
    (List.replicate ((n + 7) / 8) 0x00) 0 1 ((n + 7) / 8 + 1) 1 rfl (by rw [List.length_replicate]; omega)
    fun q y hy => by rw [List.eq_of_mem_replicate (List.mem_of_getElem? hy)]
  rw [List.length_replicate, Nat.add_zero] at hfill
  refine ⟨BitVec.ofNat 8 (n % 8) :: List.replicate ((n + 7) / 8) 0x00, ?_, _, (n + 7) / 8 * 8 - n, rfl, by omega, ?_⟩
  · simp only [newBitvec]
    rw [hnew, Option.bind_some, tmod_eight, Slots.alloc_eq]
    refine (congrArg (Option.bind · _) hwrite).trans ?_
    rw [Option.bind_some, bvInit, Slots.length_filledTo, List.nil_append, List.length_singleton, Nat.add_comm 1]
    refine (congrArg (Option.bind · _) hfill).trans ?_
    rw [Option.bind_some, Slots.elems_filledTo, tl2b, BitVec.ofInt_natCast, List.singleton_append]
  · rw [List.flatMap_replicate, byteBits_zero, List.flatten_replicate_replicate]
    rw [List.map_const', List.length_range, List.replicate_append_replicate]
    congr 1
    omega

/-! ### Filters -/

/-- The elements at the places that pass are those that pass. -/
lemma filter_range {b : ℕ → Bool} {p : α → Bool} {xs : List α} (hb : ∀ (q : ℕ) x, xs[q]? = some x → b q = p x) :
    ((List.range xs.length).filter b).map (fun q => xs[q]?) = (xs.filter p).map some := by
  induction xs generalizing b with
  | nil => rfl
  | cons x xs ih =>
    have hrest := @ih (fun q => b (q + 1)) fun q y hy => hb (q + 1) y hy
    rw [List.length_cons, List.range_succ_eq_map, List.filter_cons, List.filter_cons, hb 0 x rfl, List.filter_map]
    split_ifs
    · rw [List.map_cons, List.map_cons, List.map_map]
      exact congrArg _ hrest
    · rw [List.map_map]
      exact hrest

lemma wherePs_spec {p : α → Bool} {xs : List α} {i : ℕ} {bv : Bitvec} {b : ℕ → Bool} (h : HasBits bv xs.length b)
    (hi : i ≤ xs.length) (hb : ∀ (q : ℕ) x, q < i → xs[q]? = some x → b q = p x) :
    ∃ bv' b', wherePs p xs i bv = some bv' ∧ HasBits bv' xs.length b' ∧ ∀ (q : ℕ) x, xs[q]? = some x → b' q = p x := by
  rw [wherePs]
  rcases Nat.eq_or_lt_of_le hi with rfl | hlt
  · rw [if_pos rfl]
    exact ⟨bv, b, rfl, h, fun q x hx => hb q x (List.getElem?_eq_some_iff.mp hx).1 hx⟩
  · obtain ⟨bv₁, hset, hbits⟩ := h.bvSet_spec hlt (p xs[i])
    rw [if_neg hlt.ne, if_neg (by omega), List.getElem?_eq_getElem hlt, Option.bind_some, hset, Option.bind_some]
    refine wherePs_spec hbits hlt fun q x hq hx => ?_
    rcases Nat.lt_succ_iff_lt_or_eq.mp hq with hq | rfl
    · rw [Function.update_of_ne hq.ne, hb q x hq hx]
    · rw [Function.update_self, (List.getElem?_eq_some_iff.mp hx).2]
termination_by xs.length - i

/-- The bit vector of a predicate. -/
lemma whereP_spec (p : α → Bool) (xs : List α) :
    ∃ bv b, whereP p xs = some bv ∧ HasBits bv xs.length b ∧ ∀ (q : ℕ) x, xs[q]? = some x → b q = p x := by
  obtain ⟨bv, hnew, hbits⟩ := newBitvec_spec xs.length
  rw [whereP, hnew, Option.bind_some]
  exact wherePs_spec hbits (Nat.zero_le _) fun q x hq => absurd hq (Nat.not_lt_zero q)

namespace HasBits

variable {bv : Bitvec} {n : ℕ} {b : ℕ → Bool}

/-- The values of the bits that are set are added to what has been written. -/
lemma whereStep_spec {f : ℤ → Option β} (h : HasBits bv n b) {i k : ℕ} (hi : i + k = n) (ys : List β) {zs : List β}
    (hz : ((List.range' i k).filter b).map (fun q : ℕ => f q) = zs.map some) :
    whereStep f bv i n (Slots.filledTo ys zs.length) ys.length = some (Slots.filledTo (ys ++ zs) 0) := by
  induction k generalizing i ys zs with
  | zero =>
    rw [List.range'_zero, List.filter_nil, List.map_nil, eq_comm, List.map_eq_nil_iff] at hz
    rw [whereStep, if_pos (by omega), hz, List.append_nil, List.length_nil]
  | succ k ih =>
    have hnext : (i : ℤ) + 1 = ((i + 1 : ℕ) : ℤ) := by omega
    rw [whereStep, if_neg (by omega), if_neg (by omega), h.bvIsSet_eq (by omega), Option.bind_some, hnext]
    rw [List.range'_succ, List.filter_cons] at hz
    split_ifs at hz ⊢ with hset
    · cases zs with
      | nil => cases hz
      | cons z zs =>
        rw [List.map_cons, List.map_cons, List.cons.injEq] at hz
        have hstep := @ih (i + 1) (by omega) (ys ++ [z]) zs hz.2
        rw [List.length_append, List.length_singleton, List.append_assoc, List.singleton_append] at hstep
        rw [hz.1, Option.bind_some, List.length_cons, Slots.write_filledTo, Option.bind_some, hstep]
    · exact ih (by omega) ys hz

/-- The result has as many places as there are bits that are set. -/
lemma where_spec {f : ℤ → Option β} (h : HasBits bv n b) {zs : List β}
    (hz : ((List.range n).filter b).map (fun q : ℕ => f q) = zs.map some) :
    ((bvLength bv).bind fun e => (counts bvCount8 0 bv 1).bind fun m => (newArray m).bind fun r =>
      (whereStep f bv 0 e r 0).bind Slots.elems) = some zs := by
  have hlen := congrArg List.length hz
  rw [List.length_map, List.length_map] at hlen
  rw [List.range_eq_range'] at hz
  have hwrite := h.whereStep_spec (Nat.zero_add n) [] hz
  rw [h.bvLength_eq, Option.bind_some, h.counts_eq, Option.bind_some, newArray, if_pos (by omega), Option.bind_some,
    hlen, Int.toNat_natCast, Slots.alloc_eq]
  exact (congrArg (Option.bind · Slots.elems) hwrite).trans (Slots.elems_filledTo _)

lemma whereB_eq (h : HasBits bv n b) : whereB bv = some (((List.range n).filter b).map fun q : ℕ => (q : ℤ)) :=
  h.where_spec (List.map_map ..).symm

/-- The elements whose bits are set are selected, in their order. -/
lemma selectB_eq {p : α → Bool} {xs : List α} (h : HasBits bv xs.length b)
    (hb : ∀ (q : ℕ) x, xs[q]? = some x → b q = p x) : selectB xs bv = some (xs.filter p) :=
  h.where_spec <| by simpa only [index_natCast] using filter_range hb

end HasBits

lemma filter_eq (p : α → Bool) (xs : List α) : filter p xs = some (xs.filter p) := by
  obtain ⟨bv, b, hwhere, hbits, hb⟩ := whereP_spec p xs
  rw [filter, hwhere, Option.bind_some, hbits.selectB_eq hb]

lemma ffilterMap_eq (p : α → Bool) (f : α → β) (xs : List α) :
    ffilterMap p (fun x => some (f x)) xs = some ((xs.filter p).map f) := by
  obtain ⟨bv, b, hwhere, hbits, hb⟩ := whereP_spec p xs
  rw [whereP, Option.bind_eq_some_iff] at hwhere
  obtain ⟨new, hnew, hwhere⟩ := hwhere
  rw [ffilterMap, hnew, Option.bind_some, ffilterArrStep, hwhere, Option.bind_some, hbits.selectB_eq hb,
    Option.bind_some, fmap_some]

/-! ### Calls of `bvSet` -/

def bvSets (bv : Bitvec) : List (ℤ × Bool) → Option Bitvec
  | [] => some bv
  | (i, x) :: calls => (bvSet bv i x).bind fun bv => bvSets bv calls

/-- The bits that the calls leave behind. -/
def bitsAfter (b : ℤ → Bool) (calls : List (ℤ × Bool)) : ℤ → Bool :=
  calls.foldl (fun b c => Function.update b c.1 c.2) b

lemma bvSets_spec {bv : Bitvec} {n : ℕ} {b : ℤ → Bool} {calls : List (ℤ × Bool)} (h : HasBits bv n fun q => b q)
    (hcalls : ∀ c ∈ calls, 0 ≤ c.1 ∧ c.1 < n) :
    ∃ bv', bvSets bv calls = some bv' ∧ HasBits bv' n fun q => bitsAfter b calls q := by
  induction calls generalizing bv b with
  | nil => exact ⟨bv, rfl, h⟩
  | cons c calls ih =>
    obtain ⟨i, x⟩ := c
    obtain ⟨hpos, hlt⟩ := hcalls (i, x) List.mem_cons_self
    obtain ⟨i, rfl⟩ := Int.eq_ofNat_of_zero_le hpos
    obtain ⟨bv', hset, hbits⟩ := h.bvSet_spec (Int.ofNat_lt.mp hlt) x
    have hupdate : Function.update (fun q : ℕ => b q) i x = fun q : ℕ => Function.update b i x q :=
      (Function.update_comp_eq_of_injective b Nat.cast_injective i x).symm
    rw [hupdate] at hbits
    obtain ⟨bv'', hsets, hafter⟩ := ih hbits fun c hc => hcalls c (List.mem_cons_of_mem _ hc)
    exact ⟨bv'', by rw [bvSets, hset, Option.bind_some, hsets], hafter⟩

/-- `bv` has `n` bits, the values of `b`, and lists the ones that are set. -/
structure Lists (bv : Bitvec) (n : ℕ) (b : ℤ → Bool) : Prop where
  length : bvLength bv = some (n : ℤ)
  isSet (i : ℕ) (h : i < n) : bvIsSet bv i = some (b i)
  indices : whereB bv = some (((List.range n).map fun q : ℕ => (q : ℤ)).filter b)

lemma HasBits.lists {bv : Bitvec} {n : ℕ} {b : ℤ → Bool} (h : HasBits bv n fun q => b q) : Lists bv n b where
  length := h.bvLength_eq
  isSet _ hi := h.bvIsSet_eq hi
  indices := by
    rw [h.whereB_eq, List.filter_map]
    rfl

/-- A new bit vector after calls of `bvSet`. -/
def built (n : ℤ) (calls : List (ℤ × Bool)) : Option Bitvec := (newBitvec n).bind fun bv => bvSets bv calls

/-- A bit vector lists its bits after any calls at places that it has. An array is filtered through the bits of the
predicate, which is what filters it. -/
theorem bitvec_filter :
    (∀ (n : ℕ) (calls : List (ℤ × Bool)), (∀ c ∈ calls, 0 ≤ c.1 ∧ c.1 < n) →
      ∃ bv, built n calls = some bv ∧ Lists bv n (bitsAfter (fun _ => false) calls)) ∧
    ∀ (p : α → Bool) (xs : List α) (f : α → β),
      (∃ bv, whereP p xs = some bv ∧ bvLength bv = some (xs.length : ℤ) ∧
        (∀ (i : ℕ) x, xs[i]? = some x → bvIsSet bv i = some (p x)) ∧ selectB xs bv = some (xs.filter p)) ∧
      filter p xs = some (xs.filter p) ∧ ffilterMap p (fun x => some (f x)) xs = some ((xs.filter p).map f) := by
  refine ⟨fun n calls hcalls => ?_, fun p xs f => ⟨?_, filter_eq p xs, ffilterMap_eq p f xs⟩⟩
  · obtain ⟨new, hnew, hbits⟩ := newBitvec_spec n
    obtain ⟨bv, hsets, hafter⟩ := @bvSets_spec new n (fun _ => false) calls hbits hcalls
    exact ⟨bv, by rw [built, hnew, Option.bind_some, hsets], hafter.lists⟩
  · obtain ⟨bv, b, hwhere, hbits, hb⟩ := whereP_spec p xs
    refine ⟨bv, hwhere, hbits.bvLength_eq, fun i x hx => ?_, hbits.selectB_eq hb⟩
    rw [hbits.bvIsSet_eq (List.getElem?_eq_some_iff.mp hx).1, hb i x hx]

theorem bitvec_filter_two : ∃ bv, built 2 [(0, true), (1, true), (0, false)] = some bv ∧
    Lists bv 2 (bitsAfter (fun _ => false) [(0, true), (1, true), (0, false)]) :=
  (@bitvec_filter ℕ ℕ).1 2 [(0, true), (1, true), (0, false)] (by decide)

/-- A bit past the last one is counted and not listed. So are bits past the end of a vector that has become shorter by
a write to its first byte, and a length below zero leaves more bits to list than there are bytes. -/
theorem not_lists :
    (built 1 [(1, true)] = some [0x01, 0x02] ∧ whereB [0x01, 0x02] = none) ∧
    (built 8 [(3, true), (-8, true)] = some [0x01, 0x08] ∧ whereB [0x01, 0x08] = none) ∧
    built (-1) [] = some [0xFF] ∧ whereB [0xFF] = none := by
  decide +kernel

end Hobbes.Boot
