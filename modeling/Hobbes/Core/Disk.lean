import Hobbes.Core.Codec
import Mathlib.Data.List.GetD

/-!
# Byte stores

The bytes of a file, as a function of the position. Every byte that was not written yet is zero.
-/

namespace Core

abbrev Disk := ℕ → UInt8

namespace Disk

def blank : Disk := fun _ => 0

def write (d : Disk) (pos : ℕ) (bs : Bytes) : Disk := fun i =>
  if i < pos then d i else bs.getD (i - pos) (d i)

def read (d : Disk) : ℕ → ℕ → Bytes
  | _, 0 => []
  | pos, k + 1 => d pos :: d.read (pos + 1) k

/-- The bytes `bs` stand at `pos`. -/
def Holds (d : Disk) (pos : ℕ) (bs : Bytes) : Prop := d.read pos bs.length = bs

variable {d d' : Disk} {pos pos' i k : ℕ} {bs bs' : Bytes}

@[simp] lemma read_length (d : Disk) (pos k : ℕ) : (d.read pos k).length = k := by
  induction k generalizing pos with
  | zero => rfl
  | succ k ih => simp [read, ih]

lemma read_add (d : Disk) (pos j k : ℕ) :
    d.read pos (j + k) = d.read pos j ++ d.read (pos + j) k := by
  induction j generalizing pos with
  | zero => simp [read]
  | succ j ih =>
    rw [Nat.succ_add, read, read, ih, List.cons_append, Nat.succ_add_eq_add_succ]

lemma read_congr (h : ∀ i, pos ≤ i → i < pos + k → d' i = d i) :
    d'.read pos k = d.read pos k := by
  induction k generalizing pos with
  | zero => rfl
  | succ k ih =>
    have hhead := h pos (by omega) (by omega)
    have htail : d'.read (pos + 1) k = d.read (pos + 1) k :=
      ih fun i hi hi' => h i (by omega) (by omega)
    rw [read, read, hhead, htail]

/-! ### Writing -/

lemma write_before (d : Disk) (bs : Bytes) (h : i < pos) : d.write pos bs i = d i := if_pos h

lemma write_behind (d : Disk) (h : pos + bs.length ≤ i) : d.write pos bs i = d i := by
  rw [write, if_neg (by omega), List.getD_eq_default _ _ (by omega)]

/-- A byte outside of what is written stays. -/
lemma write_outside (d : Disk) (h : i < pos ∨ pos + bs.length ≤ i) : d.write pos bs i = d i :=
  h.elim (d.write_before bs) d.write_behind

lemma write_nil (d : Disk) (pos : ℕ) : d.write pos [] = d := by
  funext i
  exact d.write_outside (by simp; omega)

lemma write_append (d : Disk) (pos : ℕ) (bs bs' : Bytes) :
    d.write pos (bs ++ bs') = (d.write pos bs).write (pos + bs.length) bs' := by
  funext i
  by_cases hpos : i < pos
  · rw [write_before _ _ hpos, write_before _ _ (by omega), write_before _ _ hpos]
  · by_cases hbs : i < pos + bs.length
    · rw [write_before _ _ hbs, write, write, if_neg hpos, if_neg hpos,
        List.getD_append _ _ _ _ (by omega)]
    · have hsub : i - (pos + bs.length) = i - pos - bs.length := by omega
      rw [write, if_neg hpos, List.getD_append_right _ _ _ _ (by omega), write, if_neg hbs,
        write_behind _ (by omega), hsub]

/-! ### What is held -/

lemma holds_nil (d : Disk) (pos : ℕ) : d.Holds pos [] := rfl

lemma holds_append :
    d.Holds pos (bs ++ bs') ↔ d.Holds pos bs ∧ d.Holds (pos + bs.length) bs' := by
  rw [Holds, List.length_append, read_add]
  constructor
  · intro h
    exact List.append_inj h (read_length ..)
  · rintro ⟨h, h'⟩
    rw [h, h']

lemma Holds.congr (h : d.Holds pos bs)
    (heq : ∀ i, pos ≤ i → i < pos + bs.length → d' i = d i) : d'.Holds pos bs :=
  (read_congr heq).trans h

lemma holds_write (d : Disk) (pos : ℕ) (bs : Bytes) : (d.write pos bs).Holds pos bs := by
  induction bs generalizing d pos with
  | nil => rfl
  | cons b bs ih =>
    have hhead : d.write pos (b :: bs) pos = b := by simp [write]
    have htail := ih (d.write pos [b]) (pos + 1)
    have hwrite := d.write_append pos [b] bs
    rw [List.singleton_append, List.length_singleton] at hwrite
    rw [Holds, List.length_cons, read, hhead, hwrite, htail]

/-- What was held stays if something else is written. -/
lemma Holds.write (h : d.Holds pos bs)
    (hdisj : pos + bs.length ≤ pos' ∨ pos' + bs'.length ≤ pos) :
    (d.write pos' bs').Holds pos bs :=
  h.congr fun _ _ _ => d.write_outside (by omega)

/-- A reader can be run on a file that holds what it takes. -/
lemma Holds.reads {α : Type} {m size : ℕ} {r : Reader m α} {x : α} (h : d.Holds pos bs)
    (hr : r.Reads bs x) (n n' : Fin m) (hn : n.val = pos) (hn' : n'.val = pos + bs.length)
    (hsize : pos + bs.length ≤ size) : r (d.read 0 size) n = some (x, n') := by
  obtain ⟨k, rfl⟩ := Nat.exists_eq_add_of_le hsize
  have hbytes : d.read 0 (pos + bs.length + k) = d.read 0 pos ++ bs ++ d.read (pos + bs.length) k := by
    rw [read_add, read_add, Nat.zero_add, Nat.zero_add, h]
  rw [hbytes]
  exact hr _ _ n n' (by rw [read_length, hn]) (by rw [read_length, hn'])

end Disk

end Core
