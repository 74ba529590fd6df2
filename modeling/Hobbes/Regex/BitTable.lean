import Mathlib.Data.BitVec
import Mathlib.Data.List.Basic
import Mathlib.Tactic.Common

/-!
# Bit tables

A table of booleans with `rowc` rows and `colc` columns, eight of them to a byte.
-/

namespace Hobbes.Regex

structure BitTable where
  rowc : ℕ
  colc : ℕ
  data : List (BitVec 8)
  size : data.length = 1 + rowc * colc / 8

namespace BitTable

def make (rowc colc : ℕ) (s : Bool) : BitTable where
  rowc := rowc
  colc := colc
  data := List.replicate (1 + rowc * colc / 8) (if s then 0xFF else 0)
  size := List.length_replicate

/-- Past the end of its bytes a table has no bits. -/
def get (t : BitTable) (r c : ℕ) : Bool :=
  let i := r * t.colc + c
  decide ((t.data[i / 8]?).getD 0 &&& 1#8 <<< (i % 8) ≠ 0)

def setBit (f : Bool) (b : ℕ) (k : BitVec 8) : BitVec 8 := if f then k ||| 1#8 <<< b else k &&& ~~~(1#8 <<< b)

def set (t : BitTable) (r c : ℕ) (f : Bool) : BitTable :=
  let i := r * t.colc + c
  { t with
    data := t.data.modify (i / 8) (setBit f (i % 8))
    size := (List.length_modify _ _ _).trans t.size }

variable {t : BitTable} {r c r' c' : ℕ}

@[simp] lemma set_rowc (f : Bool) : (t.set r c f).rowc = t.rowc := rfl

@[simp] lemma set_colc (f : Bool) : (t.set r c f).colc = t.colc := rfl

lemma getLsbD_one_shiftLeft {b j : ℕ} (hb : b < 8) : (1#8 <<< b).getLsbD j = decide (j = b) := by
  rw [← BitVec.twoPow_eq, BitVec.getLsbD_twoPow]
  by_cases h : j = b
  · simp [h, hb]
  · simp [h, Ne.symm h]

lemma and_one_shiftLeft_ne_zero {b : ℕ} (hb : b < 8) (k : BitVec 8) :
    decide (k &&& 1#8 <<< b ≠ 0) = k.getLsbD b := by
  rw [← BitVec.twoPow_eq, BitVec.and_twoPow]
  cases hk : k.getLsbD b with
  | false => simp
  | true =>
    have hne : BitVec.twoPow 8 b ≠ 0 := fun h => by
      have hbit := congrArg (BitVec.getLsbD · b) h
      simp [BitVec.twoPow_eq, getLsbD_one_shiftLeft hb] at hbit
    simpa using hne

lemma getLsbD_setBit {b j : ℕ} (hb : b < 8) (hj : j < 8) (f : Bool) (k : BitVec 8) :
    (setBit f b k).getLsbD j = if j = b then f else k.getLsbD j := by
  cases f with
  | true =>
    rw [setBit, if_pos rfl, BitVec.getLsbD_or, getLsbD_one_shiftLeft hb]
    by_cases h : j = b <;> simp [h]
  | false =>
    rw [setBit, if_neg Bool.false_ne_true, BitVec.getLsbD_and, BitVec.getLsbD_not, getLsbD_one_shiftLeft hb]
    by_cases h : j = b <;> simp [h, hj]

lemma get_eq_getLsbD : t.get r c = ((t.data[(r * t.colc + c) / 8]?).getD 0).getLsbD ((r * t.colc + c) % 8) :=
  and_one_shiftLeft_ne_zero (Nat.mod_lt _ (by decide)) _

lemma get_make (rowc colc : ℕ) : (make rowc colc false).get r c = false := by
  have hbyte (i : ℕ) : ((List.replicate (1 + rowc * colc / 8) (0 : BitVec 8))[i]?).getD 0 = 0 := by
    rw [List.getElem?_replicate]
    split_ifs <;> rfl
  rw [get_eq_getLsbD]
  change BitVec.getLsbD ((List.replicate (1 + rowc * colc / 8) (0 : BitVec 8))[_]?.getD 0) _ = false
  rw [hbyte]
  exact BitVec.getLsbD_zero

/-- The bit of a place is its own. -/
lemma index_inj {n : ℕ} (hc : c < n) (hc' : c' < n) (h : r * n + c = r' * n + c') : r = r' ∧ c = c' := by
  have hn : 0 < n := Nat.zero_lt_of_lt hc
  have hr : r = r' := by
    have hdiv := congrArg (· / n) h
    simpa only [Nat.add_comm (_ * n), Nat.add_mul_div_right _ _ hn, Nat.div_eq_of_lt hc, Nat.div_eq_of_lt hc',
      Nat.zero_add] using hdiv
  subst hr
  exact ⟨rfl, Nat.add_left_cancel h⟩

lemma get_set (f : Bool) : (t.set r c f).get r' c' =
    if r' * t.colc + c' = r * t.colc + c ∧ (r * t.colc + c) / 8 < t.data.length then f else t.get r' c' := by
  have hmod (i : ℕ) : i % 8 < 8 := Nat.mod_lt _ (by decide)
  rw [get_eq_getLsbD, get_eq_getLsbD, set_colc]
  change BitVec.getLsbD ((t.data.modify ((r * t.colc + c) / 8) (setBit f ((r * t.colc + c) % 8)))[_]?.getD 0) _ = _
  rw [List.getElem?_modify]
  by_cases hk : (r * t.colc + c) / 8 = (r' * t.colc + c') / 8
  · simp only [hk, if_true]
    cases hbyte : t.data[(r' * t.colc + c') / 8]? with
    | none =>
      rw [List.getElem?_eq_none_iff] at hbyte
      rw [if_neg fun h => absurd h.2 (Nat.not_lt.2 hbyte)]
      rfl
    | some k =>
      obtain ⟨hlt, -⟩ := List.getElem?_eq_some_iff.1 hbyte
      change (setBit f _ k).getLsbD _ = _
      rw [getLsbD_setBit (hmod _) (hmod _)]
      refine if_congr ⟨fun h => ⟨?_, hlt⟩, fun h => ?_⟩ rfl rfl
      · rw [← Nat.div_add_mod (r' * t.colc + c') 8, h, ← hk, Nat.div_add_mod]
      · rw [h.1]
  · rw [if_neg fun h => hk (by rw [h.1])]
    simp only [if_neg hk, Option.map_eq_map, Option.map_id']

lemma get_set_self (hr : r < t.rowc) (hc : c < t.colc) (f : Bool) : (t.set r c f).get r c = f := by
  have hmul : (r + 1) * t.colc ≤ t.rowc * t.colc := Nat.mul_le_mul_right _ hr
  rw [Nat.succ_mul] at hmul
  have hlt : (r * t.colc + c) / 8 < t.data.length := by
    rw [t.size]
    omega
  rw [get_set, if_pos ⟨rfl, hlt⟩]

lemma get_set_of_ne (hc : c < t.colc) (hc' : c' < t.colc) (h : r = r' → c ≠ c') (f : Bool) :
    (t.set r c f).get r' c' = t.get r' c' := by
  rw [get_set, if_neg fun hi => ?_]
  obtain ⟨hr, hcc⟩ := index_inj hc' hc hi.1
  exact h hr.symm hcc.symm

end BitTable

end Hobbes.Regex
