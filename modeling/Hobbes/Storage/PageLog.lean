import Mathlib.Data.List.Induction
import Mathlib.Tactic.Ring
import Hobbes.Core.Ring
import Hobbes.Storage.Pipe

/-!
# The log of pages and the transactions in it

What a pipe carries is a log of marked pages. `feed` reads a log as transactions, and `visible` says
which bytes of the blocks of a transaction the writer's marks leave in the log.
-/

namespace Hobbes.Storage

open Core

/-! ### Pages -/

section

variable (pg : Page) (off : ℕ)

@[simp] lemma Page.copyIn_pend (src : List UInt8) : (pg.copyIn off src).pend = pg.pend := rfl

@[simp] lemma Page.copyOut_length (len : ℕ) : (pg.copyOut off len).length = len := by
  simp [Page.copyOut]

@[simp] lemma Page.copyOut_zero : pg.copyOut off 0 = [] := rfl

lemma Page.copyOut_add (m n : ℕ) :
    pg.copyOut off (m + n) = pg.copyOut off m ++ pg.copyOut (off + m) n := by
  simp only [Page.copyOut, ← List.map_append, List.range'_append_1]

lemma Page.copyOut_copyIn_before (src : List UInt8) :
    (pg.copyIn off src).copyOut 0 off = pg.copyOut 0 off := by
  apply List.map_congr_left
  intro i hi
  have hi : ¬ off ≤ i := by simp only [List.mem_range'_1] at hi; omega
  simp only [Page.copyIn, hi, false_and, if_false]

lemma Page.copyOut_copyIn_self (src : List UInt8) :
    (pg.copyIn off src).copyOut off src.length = src := by
  apply List.ext_getElem
  · simp
  intro i h₁ h₂
  have h₁ : i < src.length := h₂
  simp [Page.copyOut, Page.copyIn, h₁]

/-- Copying behind what is already there appends to it. -/
lemma Page.copyOut_copyIn (src : List UInt8) :
    (pg.copyIn off src).copyOut 0 (off + src.length) = pg.copyOut 0 off ++ src := by
  rw [Page.copyOut_add, Page.copyOut_copyIn_before, Nat.zero_add, Page.copyOut_copyIn_self]

lemma Page.copyOut_eq {len n : ℕ} (h : off + n ≤ len) :
    pg.copyOut off n = ((pg.copyOut 0 len).drop off).take n := by
  obtain ⟨k, rfl⟩ := Nat.exists_eq_add_of_le h
  rw [Nat.add_assoc, Page.copyOut_add, Page.copyOut_add, List.drop_left' (by simp),
    Nat.zero_add, List.take_left' (by simp)]

end

/-! ### Stamps -/

section

variable {c : PageState} {n : ℕ}

lemma PageState.code_lt (c : PageState) : c.code < 4 := by cases c <;> decide

lemma PageState.code_injective : Function.Injective PageState.code := by
  intro c d h
  cases c <;> cases d <;> first | rfl | exact absurd h (by decide)

lemma stamp_eq (h : n < 2 ^ 24) : stamp c n = c.code * 2 ^ 24 + n := by
  rw [stamp, ← Nat.shiftLeft_add_eq_or_of_lt h, Nat.shiftLeft_eq]

/-- The length that `read` takes out of a stamp. -/
lemma stamp_length (h : n < 2 ^ 24) : stamp c n &&& 0xFFFFFF = n := by
  have hmask : (0xFFFFFF : ℕ) = 2 ^ 24 - 1 := by decide
  rw [hmask, Nat.and_two_pow_sub_one_eq_mod, stamp_eq h, Nat.mul_add_mod_self_right,
    Nat.mod_eq_of_lt h]

/-- The state that `read` takes out of a stamp. -/
lemma stamp_state (h : n < 2 ^ 24) : stamp c n >>> 24 = c.code := by
  rw [stamp_eq h, Nat.shiftRight_eq_div_pow, Nat.mul_comm, Nat.mul_add_div (by decide),
    Nat.div_eq_of_lt h, Nat.add_zero]

end

/-! ### Logs -/

/-- A marked page: the bytes up to the offset it was marked with, and the state. -/
structure Entry where
  bytes : List UInt8
  state : PageState

/-- What a log of pages amounts to: the transactions that are complete, and the bytes of the one
that is not. -/
@[ext]
structure Feed where
  done : List (List UInt8)
  part : List UInt8

def Feed.append (f : Feed) (bs : List UInt8) : Feed := ⟨f.done, f.part ++ bs⟩

/-- A tentative page counts as one that the transaction goes on behind. -/
def Feed.take (f : Feed) (e : Entry) : Feed :=
  match e.state with
  | .tentative | .cont => f.append e.bytes
  | .commit => ⟨f.done ++ [f.part ++ e.bytes], []⟩
  | .rollback => ⟨f.done, []⟩

def feed (log : List Entry) : Feed := log.foldl Feed.take ⟨[], []⟩

section

variable {f : Feed} {e : Entry} {log : List Entry} {bs cs : List UInt8}

@[simp] lemma Feed.append_nil : f.append [] = f := by simp [Feed.append]

@[simp] lemma Feed.append_append : (f.append bs).append cs = f.append (bs ++ cs) := by
  simp [Feed.append]

@[simp] lemma Feed.append_done : (f.append bs).done = f.done := rfl

@[simp] lemma feed_nil : feed [] = ⟨[], []⟩ := rfl

@[simp] lemma feed_concat : feed (log ++ [e]) = (feed log).take e := by simp [feed]

lemma Feed.done_prefix_take : f.done <+: (f.take e).done := by
  unfold Feed.take
  split <;> simp [Feed.append]

lemma feed_done_prefix (log log' : List Entry) : (feed log).done <+: (feed (log ++ log')).done := by
  induction log' using List.reverseRecOn with
  | nil => simp
  | append_singleton l e ih =>
    rw [← List.append_assoc, feed_concat]
    exact ih.trans Feed.done_prefix_take

lemma feed_take_succ {n : ℕ} (h : log[n]? = some e) :
    feed (log.take (n + 1)) = (feed (log.take n)).take e := by
  rw [List.take_add_one, h, Option.toList_some, feed_concat]

end

/-! ### Transactions -/

/-- The writer's calls, read as transactions: the blocks of each one that was committed after no
write had failed, and those of the current one. -/
structure Txns where
  done : List (List (List UInt8))
  cur : List (List UInt8)
  failed : Bool

def Txns.call (t : Txns) : Call → Txns
  | .wrote src true => { t with cur := t.cur ++ [src] }
  | .wrote _ false => { t with failed := true }
  | .commit => ⟨if t.failed then t.done else t.done ++ [t.cur], [], false⟩
  | .rollback => ⟨t.done, [], false⟩

def txns (calls : List Call) : Txns := calls.foldl Txns.call ⟨[], [], false⟩

@[simp] lemma txns_nil : txns [] = ⟨[], [], false⟩ := rfl

@[simp] lemma txns_concat (calls : List Call) (c : Call) :
    txns (calls ++ [c]) = (txns calls).call c := by simp [txns]

/-- How many bytes the current transaction has. -/
def Txns.size (t : Txns) : ℕ := (t.cur.map List.length).sum

/-! ### Visible bytes -/

section

variable {P o : ℕ} {src rest : List UInt8} {blocks : List (List UInt8)}

/-- What is left of `rest` when all the pages that it fills are dropped. -/
def lastPage (P : ℕ) (rest : List UInt8) : List UInt8 := rest.drop (rest.length / P * P)

/-- The bytes of a block, written at offset `o` of a page, that some mark covers: a page that the
block fills completely is marked with the offset `0`. -/
def stamped (P o : ℕ) (src : List UInt8) : List UInt8 :=
  if src.length < P - o then src else src.take (P - o) ++ lastPage P (src.drop (P - o))

/-- The bytes of a sequence of blocks that marks cover. -/
def visible (P o : ℕ) : List (List UInt8) → List UInt8
  | [] => []
  | b :: bs => stamped P o b ++ visible P ((o + b.length) % P) bs

lemma lastPage_of_lt (h : rest.length < P) : lastPage P rest = rest := by
  simp [lastPage, Nat.div_eq_of_lt h]

lemma lastPage_drop (hP : 0 < P) (h : P ≤ rest.length) :
    lastPage P (rest.drop P) = lastPage P rest := by
  have hdiv : rest.length / P = (rest.length - P) / P + 1 := Nat.div_eq_sub_div hP h
  rw [lastPage, lastPage, List.drop_drop, List.length_drop, hdiv]
  congr 1
  ring

lemma stamped_of_lt (h : src.length < P - o) : stamped P o src = src := if_pos h

lemma stamped_of_le (h : P - o ≤ src.length) :
    stamped P o src = src.take (P - o) ++ lastPage P (src.drop (P - o)) :=
  if_neg (Nat.not_lt.mpr h)

lemma lastPage_length : (lastPage P rest).length = rest.length % P := by
  rw [lastPage, List.length_drop, ← Nat.mod_eq_sub_div_mul]

/-- A block is visible as a whole exactly if no page lies completely inside it. -/
lemma stamped_eq_iff (ho : o < P) : stamped P o src = src ↔ o + src.length < 2 * P := by
  by_cases h : src.length < P - o
  · simp only [stamped_of_lt h, true_iff]
    omega
  rw [stamped_of_le (by omega)]
  constructor
  · intro he
    by_contra hge
    have hlen := congrArg List.length he
    have hmod := Nat.mod_lt (src.length - (P - o)) (show 0 < P by omega)
    rw [List.length_append, lastPage_length, List.length_take, List.length_drop] at hlen
    omega
  · intro hlt
    rw [lastPage_of_lt (by rw [List.length_drop]; omega), List.take_append_drop]

lemma stamped_length_le : (stamped P o src).length ≤ src.length := by
  unfold stamped
  split_ifs
  · exact le_rfl
  · rw [List.length_append, lastPage, List.length_take, List.length_drop, List.length_drop]
    omega

lemma stamped_sublist : (stamped P o src).Sublist src := by
  unfold stamped
  split_ifs
  · exact List.Sublist.refl _
  · conv_rhs => rw [← List.take_append_drop (P - o) src]
    exact (List.Sublist.refl _).append (List.drop_sublist ..)

@[simp] lemma visible_nil : visible P o [] = [] := rfl

lemma visible_concat (hP : 0 < P) (ho : o < P) : visible P o (blocks ++ [src]) =
    visible P o blocks ++ stamped P ((o + (blocks.map List.length).sum) % P) src := by
  induction blocks generalizing o with
  | nil => simp [visible, Nat.mod_eq_of_lt ho]
  | cons b bs ih =>
    simp only [List.cons_append, visible, ih (Nat.mod_lt _ hP), List.map_cons, List.sum_cons,
      List.append_assoc, Nat.mod_add_mod, Nat.add_assoc]

lemma visible_sublist : (visible P o blocks).Sublist blocks.flatten := by
  induction blocks generalizing o with
  | nil => exact .slnil
  | cons b bs ih => exact stamped_sublist.append ih

/-- No page lies completely inside one of the blocks. -/
def Spread (P o : ℕ) : List (List UInt8) → Prop
  | [] => True
  | b :: bs => o + b.length < 2 * P ∧ Spread P ((o + b.length) % P) bs

lemma visible_eq_flatten_iff (ho : o < P) :
    visible P o blocks = blocks.flatten ↔ Spread P o blocks := by
  induction blocks generalizing o with
  | nil => simp [Spread]
  | cons b bs ih =>
    have hmod : (o + b.length) % P < P := Nat.mod_lt _ (by omega)
    simp only [visible, List.flatten_cons, Spread, ← stamped_eq_iff ho, ← ih hmod]
    constructor
    · intro h
      refine List.append_inj h (Nat.le_antisymm stamped_length_le ?_)
      -- what is missing in the first block cannot be made up for by the others
      have hlen := congrArg List.length h
      have hle : (visible P ((o + b.length) % P) bs).length ≤ bs.flatten.length :=
        visible_sublist.length_le
      simp only [List.length_append] at hlen
      omega
    · rintro ⟨h₁, h₂⟩
      rw [h₁, h₂]

end

end Hobbes.Storage
