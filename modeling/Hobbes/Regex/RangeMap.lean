import Mathlib.Data.List.Induction
import Mathlib.Data.Nat.Basic
import Mathlib.Tactic.SplitIfs

/-!
# Range maps

Maps from keys to values that are constant on ranges of keys, as a list of ranges with their values.
-/

namespace Hobbes.Regex

/-- The template parameter `Ord` of a range map. -/
class RangeOrd (K : Type) where
  lt : K → K → Bool
  pred : K → K
  succ : K → K

/-- The keys are numbered in their order. A key has a successor where there is a greater one, and a predecessor
where there is a smaller one. -/
class LawfulRangeOrd (K : Type) [RangeOrd K] where
  rank : K → ℕ
  rank_inj : ∀ {a b}, rank a = rank b → a = b
  lt_iff : ∀ {a b}, RangeOrd.lt a b ↔ rank a < rank b
  rank_succ : ∀ {a b}, rank a < rank b → rank (RangeOrd.succ a) = rank a + 1
  rank_pred : ∀ {a b}, rank a < rank b → rank (RangeOrd.pred b) + 1 = rank b

/-- `char_range_ord`. -/
instance : RangeOrd UInt8 where
  lt a b := a < b
  pred x := x - 1
  succ x := x + 1

instance : LawfulRangeOrd UInt8 where
  rank := UInt8.toNat
  rank_inj := UInt8.toNat_inj.1
  lt_iff := decide_eq_true_iff.trans UInt8.lt_iff_toNat_lt
  rank_succ {a b} h := by
    have hb := b.toNat_lt
    show (a + 1).toNat = a.toNat + 1
    rw [UInt8.toNat_add, UInt8.toNat_one]
    omega
  rank_pred {a b} h := by
    have hb := b.toNat_lt
    show (b - 1).toNat + 1 = b.toNat
    rw [UInt8.toNat_sub, UInt8.toNat_one]
    omega

open RangeOrd LawfulRangeOrd

variable {K V : Type}

/-- A range has both of its ends. -/
abbrev Range (K : Type) := K × K

/-- The ways that two ranges can meet. -/
inductive RangeIntersection where
  | llrr
  | rrll
  | ee
  | elr
  | erl
  | lre
  | rle
  | lrrl
  | rllr
  | lrlr
  | rlrl
  deriving DecidableEq

section Operations

variable [RangeOrd K] [DecidableEq K]

def classifyIntersection (lr rr : Range K) : RangeIntersection :=
  if lt lr.2 rr.1 then .llrr
  else if lt rr.2 lr.1 then .rrll
  else if lr.1 = rr.1 then
    if lr.2 = rr.2 then .ee else if lt lr.2 rr.2 then .elr else .erl
  else if lr.2 = rr.2 then
    if lt lr.1 rr.1 then .lre else .rle
  else if lt lr.1 rr.1 && lt rr.2 lr.2 then .lrrl
  else if lt rr.1 lr.1 && lt lr.2 rr.2 then .rllr
  else if lt rr.1 lr.1 && lt rr.2 lr.2 then .rlrl
  else .lrlr

/-- The vectors `rs` and `vs`, which have one length and are always changed at the same places. -/
abbrev RangeMap (K V : Type) := List (Range K × V)

namespace RangeMap

def find (k : K) : RangeMap K V → ℕ
  | [] => 0
  | (r, _) :: m =>
    if k = r.1 ∨ k = r.2 ∨ lt r.1 k && lt k r.2 then 0
    else if lt k r.1 then m.length + 1
    else find k m + 1

def lookup (m : RangeMap K V) (k : K) : Option V := (m[m.find k]?).map Prod.snd

def lookupRangeSubset (m : RangeMap K V) (kr : Range K) : Option V :=
  if m.find kr.1 = m.find kr.2 then (m[m.find kr.1]?).map Prod.snd else none

def deleteFrom (rr : Range K) : RangeMap K V → RangeMap K V
  | [] => []
  | (lr, w) :: m =>
    match classifyIntersection lr rr with
    | .llrr => (lr, w) :: deleteFrom rr m
    | .rrll => (lr, w) :: m
    | .ee | .rle => m
    | .elr | .rllr => deleteFrom rr m
    | .erl | .rlrl => ((succ rr.2, lr.2), w) :: m
    | .lre => ((lr.1, pred rr.1), w) :: m
    | .lrrl => ((lr.1, pred rr.1), w) :: ((succ rr.2, lr.2), w) :: m
    | .lrlr => ((lr.1, pred rr.1), w) :: deleteFrom rr m

def insert (rr : Range K) (v : V) : RangeMap K V → RangeMap K V
  | [] => [(rr, v)]
  | (lr, w) :: m =>
    match classifyIntersection lr rr with
    | .llrr => (lr, w) :: insert rr v m
    | .rrll => (rr, v) :: (lr, w) :: m
    | .ee => (lr, v) :: m
    | .elr => ((lr.1, rr.2), v) :: deleteFrom rr m
    | .erl | .rlrl => (rr, v) :: ((succ rr.2, lr.2), w) :: m
    | .lre => ((lr.1, pred rr.1), w) :: (rr, v) :: m
    | .rle => ((rr.1, lr.2), v) :: m
    | .lrrl => ((lr.1, pred rr.1), w) :: (rr, v) :: ((succ rr.2, lr.2), w) :: m
    | .rllr => (rr, v) :: deleteFrom rr m
    | .lrlr => ((lr.1, pred rr.1), w) :: (rr, v) :: deleteFrom rr m

/-- Where the loop goes on with what is left of the range, it has come past all that it has changed. -/
def mergeRange [Inhabited V] (f : V → V) : Range K → RangeMap K V → RangeMap K V
  | rr, [] => [(rr, f default)]
  | rr, (lr, w) :: m =>
    match classifyIntersection lr rr with
    | .llrr => (lr, w) :: mergeRange f rr m
    | .rrll => (rr, f default) :: (lr, w) :: m
    | .ee => (lr, f w) :: m
    | .elr => (lr, f w) :: mergeRange f (succ lr.2, rr.2) m
    | .erl => ((lr.1, rr.2), f w) :: ((succ rr.2, lr.2), w) :: m
    | .lre => ((lr.1, pred rr.1), w) :: (rr, f w) :: m
    | .rle => ((rr.1, pred lr.1), f default) :: (lr, f w) :: m
    | .lrrl => ((lr.1, pred rr.1), w) :: (rr, f w) :: ((succ rr.2, lr.2), w) :: m
    | .rllr => ((rr.1, pred lr.1), f default) :: (lr, f w) :: mergeRange f (succ lr.2, rr.2) m
    | .lrlr => ((lr.1, pred rr.1), w) :: ((rr.1, lr.2), f w) :: mergeRange f (succ lr.2, rr.2) m
    | .rlrl => ((rr.1, pred lr.1), f default) :: ((lr.1, rr.2), f w) :: ((succ rr.2, lr.2), w) :: m

/-- What `compact` does from the range `tr` with the value `w`. -/
def compactFrom [DecidableEq V] (tr : Range K) (w : V) : RangeMap K V → RangeMap K V
  | [] => [(tr, w)]
  | (nr, x) :: m =>
    if tr.2 = pred nr.1 ∧ w = x then compactFrom (tr.1, nr.2) w m
    else (tr, w) :: compactFrom nr x m

def compact [DecidableEq V] : RangeMap K V → RangeMap K V
  | [] => []
  | (tr, w) :: m => compactFrom tr w m

end RangeMap

end Operations

/-! ### Ranges -/

section Ranges

variable [RangeOrd K] [LawfulRangeOrd K]

def Range.Nonempty (r : Range K) : Prop := rank r.1 ≤ rank r.2

def Range.Contains (r : Range K) (k : K) : Prop := rank r.1 ≤ rank k ∧ rank k ≤ rank r.2

instance (r : Range K) (k : K) : Decidable (r.Contains k) := inferInstanceAs (Decidable (_ ∧ _))

/-- Ranges that have keys, one after the other, with no key below `n`. -/
def SortedFrom : ℕ → List (Range K) → Prop
  | _, [] => True
  | n, r :: rs => n ≤ rank r.1 ∧ r.Nonempty ∧ SortedFrom (rank r.2 + 1) rs

lemma sortedFrom_cons {n : ℕ} {r : Range K} {rs : List (Range K)} :
    SortedFrom n (r :: rs) ↔ n ≤ rank r.1 ∧ rank r.1 ≤ rank r.2 ∧ SortedFrom (rank r.2 + 1) rs := Iff.rfl

lemma SortedFrom.mono {n n' : ℕ} {rs : List (Range K)} (h : SortedFrom n rs) (hn : n' ≤ n) :
    SortedFrom n' rs := by
  cases rs with
  | nil => trivial
  | cons r rs => exact ⟨Nat.le_trans hn h.1, h.2⟩

lemma SortedFrom.le {n : ℕ} {rs : List (Range K)} (h : SortedFrom n rs) {r : Range K} (hr : r ∈ rs) :
    n ≤ rank r.1 := by
  induction rs generalizing n with
  | nil => cases hr
  | cons s rs ih =>
    obtain ⟨hn, hs, hrs⟩ := h
    rcases List.mem_cons.1 hr with rfl | hr
    · exact hn
    · have hle := ih hrs hr
      unfold Range.Nonempty at hs
      omega

/-- Ranges that have keys and come one after the other. -/
def Sorted (rs : List (Range K)) : Prop :=
  (∀ r ∈ rs, r.Nonempty) ∧ rs.Pairwise fun r s => rank r.2 < rank s.1

instance (rs : List (Range K)) : Decidable (Sorted rs) :=
  inferInstanceAs (Decidable ((∀ r ∈ rs, rank r.1 ≤ rank r.2) ∧ _))

lemma SortedFrom.sorted {n : ℕ} {rs : List (Range K)} (h : SortedFrom n rs) : Sorted rs := by
  induction rs generalizing n with
  | nil => exact ⟨fun _ hr => absurd hr List.not_mem_nil, .nil⟩
  | cons r rs ih =>
    obtain ⟨hall, hpairs⟩ := ih h.2.2
    exact ⟨List.forall_mem_cons.2 ⟨h.2.1, hall⟩, .cons (fun s hs => h.2.2.le hs) hpairs⟩

lemma Sorted.sortedFrom {rs : List (Range K)} (h : Sorted rs) : SortedFrom 0 rs := by
  have hfrom (n : ℕ) (hn : ∀ r ∈ rs, n ≤ rank r.1) : SortedFrom n rs := by
    induction rs generalizing n with
    | nil => trivial
    | cons r rs ih =>
      have hrest : Sorted rs := ⟨fun s hs => h.1 s (List.mem_cons_of_mem r hs), h.2.of_cons⟩
      exact ⟨hn r List.mem_cons_self, h.1 r List.mem_cons_self, ih hrest _ fun s hs => List.rel_of_pairwise_cons h.2 hs⟩
  exact hfrom 0 fun _ _ => Nat.zero_le _

/-- What is known of two ranges from the way that they meet. Where a range is split, the keys beside the place
are neighbours. -/
inductive Meets (lr rr : Range K) : RangeIntersection → Prop
  | llrr : rank lr.2 < rank rr.1 → Meets lr rr .llrr
  | rrll : rank rr.2 < rank lr.1 → Meets lr rr .rrll
  | ee : rank lr.1 = rank rr.1 → rank lr.2 = rank rr.2 → Meets lr rr .ee
  | elr : rank lr.1 = rank rr.1 → rank lr.2 < rank rr.2 → rank (succ lr.2) = rank lr.2 + 1 → Meets lr rr .elr
  | erl : rank lr.1 = rank rr.1 → rank rr.2 < rank lr.2 → rank (succ rr.2) = rank rr.2 + 1 → Meets lr rr .erl
  | lre : rank lr.1 < rank rr.1 → rank lr.2 = rank rr.2 → rank (pred rr.1) + 1 = rank rr.1 → Meets lr rr .lre
  | rle : rank rr.1 < rank lr.1 → rank lr.2 = rank rr.2 → rank (pred lr.1) + 1 = rank lr.1 → Meets lr rr .rle
  | lrrl : rank lr.1 < rank rr.1 → rank rr.2 < rank lr.2 → rank (pred rr.1) + 1 = rank rr.1 →
      rank (succ rr.2) = rank rr.2 + 1 → Meets lr rr .lrrl
  | rllr : rank rr.1 < rank lr.1 → rank lr.2 < rank rr.2 → rank (pred lr.1) + 1 = rank lr.1 →
      rank (succ lr.2) = rank lr.2 + 1 → Meets lr rr .rllr
  | lrlr : rank lr.1 < rank rr.1 → rank rr.1 ≤ rank lr.2 → rank lr.2 < rank rr.2 →
      rank (pred rr.1) + 1 = rank rr.1 → rank (succ lr.2) = rank lr.2 + 1 → Meets lr rr .lrlr
  | rlrl : rank rr.1 < rank lr.1 → rank lr.1 ≤ rank rr.2 → rank rr.2 < rank lr.2 →
      rank (pred lr.1) + 1 = rank lr.1 → rank (succ rr.2) = rank rr.2 + 1 → Meets lr rr .rlrl

lemma lt_iff_rank {a b : K} : lt a b = true ↔ rank a < rank b := lt_iff

lemma eq_iff_rank {a b : K} : a = b ↔ rank a = rank b := ⟨congrArg rank, rank_inj⟩

lemma meets_classifyIntersection [DecidableEq K] (lr rr : Range K) :
    Meets lr rr (classifyIntersection lr rr) := by
  simp only [classifyIntersection, Bool.and_eq_true, lt_iff_rank, eq_iff_rank]
  split_ifs with h1 h2 h3 h4 h5 h6 h7 h8 h9 h10
  · exact .llrr h1
  · exact .rrll h2
  · exact .ee h3 h4
  · exact .elr h3 h5 (rank_succ h5)
  · have h : rank rr.2 < rank lr.2 := by omega
    exact .erl h3 h (rank_succ h)
  · exact .lre h7 h6 (rank_pred h7)
  · have h : rank rr.1 < rank lr.1 := by omega
    exact .rle h h6 (rank_pred h)
  · exact .lrrl h8.1 h8.2 (rank_pred h8.1) (rank_succ h8.2)
  · exact .rllr h9.1 h9.2 (rank_pred h9.1) (rank_succ h9.2)
  · exact .rlrl h10.1 (by omega) h10.2 (rank_pred h10.1) (rank_succ h10.2)
  · have h : rank lr.1 < rank rr.1 := by omega
    have h' : rank lr.2 < rank rr.2 := by omega
    exact .lrlr h (by omega) h' (rank_pred h) (rank_succ h')

end Ranges

namespace RangeMap

def ranges (m : RangeMap K V) : List (Range K) := m.map Prod.fst

lemma ranges_cons (r : Range K) (v : V) (m : RangeMap K V) : ranges ((r, v) :: m) = r :: m.ranges := rfl

section Ranges

variable [RangeOrd K] [LawfulRangeOrd K]

/-- The value of the first range with a key. -/
def valueAt : RangeMap K V → K → Option V
  | [], _ => none
  | (r, v) :: m, k => if r.Contains k then some v else valueAt m k

lemma valueAt_eq_none {n : ℕ} {m : RangeMap K V} (h : SortedFrom n m.ranges) {k : K} (hk : rank k < n) :
    m.valueAt k = none := by
  induction m generalizing n with
  | nil => rfl
  | cons e m ih =>
    obtain ⟨hn, hr, hm⟩ := h
    unfold Range.Nonempty at hr
    have hnot : ¬ e.1.Contains k := fun hc => by
      unfold Range.Contains at hc
      omega
    exact (if_neg hnot).trans (ih hm (by omega))

lemma sortedFrom_entry {n : ℕ} {a b : K} {v : V} {m : RangeMap K V} (ha : n ≤ rank a)
    (hab : rank a ≤ rank b) (hm : SortedFrom (rank b + 1) m.ranges) :
    SortedFrom n (ranges (((a, b), v) :: m)) :=
  ⟨ha, hab, hm⟩

end Ranges

/-! ### Changes -/

section Changes

variable [RangeOrd K] [LawfulRangeOrd K] [DecidableEq K]

lemma sortedFrom_deleteFrom {rr : Range K} (hrr : rr.Nonempty) {n : ℕ} {m : RangeMap K V}
    (hm : SortedFrom n m.ranges) : SortedFrom n (deleteFrom rr m).ranges := by
  unfold Range.Nonempty at hrr
  induction m generalizing n with
  | nil => trivial
  | cons e m ih =>
    obtain ⟨lr, w⟩ := e
    simp only [ranges_cons, sortedFrom_cons] at hm
    obtain ⟨hn, hr, hm⟩ := hm
    have hmeets := meets_classifyIntersection lr rr
    rw [deleteFrom]
    generalize classifyIntersection lr rr = c at hmeets ⊢
    cases hmeets with
    | llrr => exact sortedFrom_entry hn hr (ih hm)
    | rrll => exact sortedFrom_entry hn hr hm
    | ee => exact hm.mono (by omega)
    | rle => exact hm.mono (by omega)
    | elr => exact (ih hm).mono (by omega)
    | rllr => exact (ih hm).mono (by omega)
    | erl => exact sortedFrom_entry (by omega) (by omega) hm
    | rlrl => exact sortedFrom_entry (by omega) (by omega) hm
    | lre => exact sortedFrom_entry hn (by omega) (hm.mono (by omega))
    | lrrl => exact sortedFrom_entry hn (by omega) (sortedFrom_entry (by omega) (by omega) hm)
    | lrlr => exact sortedFrom_entry hn (by omega) ((ih hm).mono (by omega))

/-- Nothing of the range is left. -/
lemma sortedFrom_deleteFrom_of_le {rr : Range K} {n : ℕ} (hn : rank rr.1 ≤ n) {m : RangeMap K V}
    (hm : SortedFrom n m.ranges) : SortedFrom (rank rr.2 + 1) (deleteFrom rr m).ranges := by
  induction m generalizing n with
  | nil => trivial
  | cons e m ih =>
    obtain ⟨lr, w⟩ := e
    simp only [ranges_cons, sortedFrom_cons] at hm
    obtain ⟨hlr, hr, hm⟩ := hm
    have hmeets := meets_classifyIntersection lr rr
    rw [deleteFrom]
    generalize classifyIntersection lr rr = c at hmeets ⊢
    have hih := ih (n := rank lr.2 + 1) (by omega) hm
    cases hmeets with
    | rrll => exact sortedFrom_entry (by omega) hr hm
    | ee => exact hm.mono (by omega)
    | rle => exact hm.mono (by omega)
    | elr => exact hih
    | rllr => exact hih
    | erl => exact sortedFrom_entry (by omega) (by omega) hm
    | rlrl => exact sortedFrom_entry (by omega) (by omega) hm
    | _ => omega

lemma valueAt_deleteFrom {rr : Range K} (hrr : rr.Nonempty) {n : ℕ} {m : RangeMap K V}
    (hm : SortedFrom n m.ranges) (k : K) :
    (deleteFrom rr m).valueAt k = if rr.Contains k then none else m.valueAt k := by
  induction m generalizing n with
  | nil => simp [deleteFrom, valueAt]
  | cons e m ih =>
    obtain ⟨lr, w⟩ := e
    simp only [ranges_cons, sortedFrom_cons] at hm
    obtain ⟨hn, hr, hm⟩ := hm
    have hmeets := meets_classifyIntersection lr rr
    rw [deleteFrom]
    generalize classifyIntersection lr rr = c at hmeets ⊢
    have hafter : rank k ≤ rank lr.2 → valueAt m k = none :=
      fun hk => valueAt_eq_none hm (Nat.lt_succ_of_le hk)
    unfold Range.Nonempty at hrr
    cases hmeets <;> simp only [valueAt, ih hm] <;> split_ifs <;> simp only [Range.Contains] at * <;>
      first | rfl | omega | exact hafter (by omega)

lemma sortedFrom_insert {rr : Range K} (hrr : rr.Nonempty) (v : V) {n : ℕ} (hn : n ≤ rank rr.1)
    {m : RangeMap K V} (hm : SortedFrom n m.ranges) : SortedFrom n (insert rr v m).ranges := by
  unfold Range.Nonempty at hrr
  induction m generalizing n with
  | nil => exact ⟨hn, hrr, trivial⟩
  | cons e m ih =>
    obtain ⟨lr, w⟩ := e
    simp only [ranges_cons, sortedFrom_cons] at hm
    obtain ⟨hlr, hr, hm⟩ := hm
    have hmeets := meets_classifyIntersection lr rr
    rw [insert]
    generalize classifyIntersection lr rr = c at hmeets ⊢
    have hdelete : rank rr.1 ≤ rank lr.2 + 1 → SortedFrom (rank rr.2 + 1) (deleteFrom rr m).ranges :=
      fun hle => sortedFrom_deleteFrom_of_le hle hm
    cases hmeets with
    | llrr => exact sortedFrom_entry hlr hr (ih (by omega) hm)
    | rrll => exact sortedFrom_entry hn hrr (sortedFrom_entry (by omega) hr hm)
    | ee => exact sortedFrom_entry hlr hr hm
    | elr => exact sortedFrom_entry hlr (by omega) (hdelete (by omega))
    | rllr => exact sortedFrom_entry hn hrr (hdelete (by omega))
    | erl => exact sortedFrom_entry hn hrr (sortedFrom_entry (by omega) (by omega) hm)
    | rlrl => exact sortedFrom_entry hn hrr (sortedFrom_entry (by omega) (by omega) hm)
    | lre =>
      exact sortedFrom_entry hlr (by omega) (sortedFrom_entry (by omega) hrr (hm.mono (by omega)))
    | rle => exact sortedFrom_entry hn (by omega) hm
    | lrrl =>
      exact sortedFrom_entry hlr (by omega)
        (sortedFrom_entry (by omega) hrr (sortedFrom_entry (by omega) (by omega) hm))
    | lrlr => exact sortedFrom_entry hlr (by omega) (sortedFrom_entry (by omega) hrr (hdelete (by omega)))

lemma valueAt_insert {rr : Range K} (hrr : rr.Nonempty) (v : V) {n : ℕ} {m : RangeMap K V}
    (hm : SortedFrom n m.ranges) (k : K) :
    (insert rr v m).valueAt k = if rr.Contains k then some v else m.valueAt k := by
  induction m generalizing n with
  | nil => simp [insert, valueAt]
  | cons e m ih =>
    obtain ⟨lr, w⟩ := e
    simp only [ranges_cons, sortedFrom_cons] at hm
    obtain ⟨hn, hr, hm⟩ := hm
    have hmeets := meets_classifyIntersection lr rr
    rw [insert]
    generalize classifyIntersection lr rr = c at hmeets ⊢
    have hdelete := valueAt_deleteFrom hrr hm k
    unfold Range.Nonempty at hrr
    cases hmeets <;> simp only [valueAt, ih hm, hdelete] <;> split_ifs <;>
      simp only [Range.Contains] at * <;> first | rfl | omega

lemma sortedFrom_mergeRange [Inhabited V] (f : V → V) {rr : Range K} (hrr : rr.Nonempty) {n : ℕ}
    (hn : n ≤ rank rr.1) {m : RangeMap K V} (hm : SortedFrom n m.ranges) :
    SortedFrom n (mergeRange f rr m).ranges := by
  unfold Range.Nonempty at hrr
  induction m generalizing n rr with
  | nil => exact sortedFrom_entry hn hrr trivial
  | cons e m ih =>
    obtain ⟨lr, w⟩ := e
    simp only [ranges_cons, sortedFrom_cons] at hm
    obtain ⟨hlr, hr, hm⟩ := hm
    have hmeets := meets_classifyIntersection lr rr
    rw [mergeRange]
    generalize classifyIntersection lr rr = c at hmeets ⊢
    have hrest : rank lr.2 < rank rr.2 → rank (succ lr.2) = rank lr.2 + 1 →
        SortedFrom (rank lr.2 + 1) (mergeRange f (succ lr.2, rr.2) m).ranges :=
      fun hlt hsucc => ih (show rank (succ lr.2) ≤ rank rr.2 by omega)
        (show rank lr.2 + 1 ≤ rank (succ lr.2) by omega) hm
    cases hmeets with
    | llrr => exact sortedFrom_entry hlr hr (ih hrr (by omega) hm)
    | rrll => exact sortedFrom_entry hn hrr (sortedFrom_entry (by omega) hr hm)
    | ee => exact sortedFrom_entry hlr hr hm
    | elr _ hlt hsucc => exact sortedFrom_entry hlr hr (hrest hlt hsucc)
    | erl => exact sortedFrom_entry hlr (by omega) (sortedFrom_entry (by omega) (by omega) hm)
    | lre =>
      exact sortedFrom_entry hlr (by omega) (sortedFrom_entry (by omega) hrr (hm.mono (by omega)))
    | rle => exact sortedFrom_entry hn (by omega) (sortedFrom_entry (by omega) hr hm)
    | lrrl =>
      exact sortedFrom_entry hlr (by omega)
        (sortedFrom_entry (by omega) hrr (sortedFrom_entry (by omega) (by omega) hm))
    | rllr _ hlt _ hsucc =>
      exact sortedFrom_entry hn (by omega) (sortedFrom_entry (by omega) hr (hrest hlt hsucc))
    | lrlr _ _ hlt _ hsucc =>
      exact sortedFrom_entry hlr (by omega) (sortedFrom_entry (by omega) (by omega) (hrest hlt hsucc))
    | rlrl =>
      exact sortedFrom_entry hn (by omega)
        (sortedFrom_entry (by omega) (by omega) (sortedFrom_entry (by omega) (by omega) hm))

lemma valueAt_mergeRange [Inhabited V] (f : V → V) {rr : Range K} (hrr : rr.Nonempty) {n : ℕ}
    {m : RangeMap K V} (hm : SortedFrom n m.ranges) (k : K) :
    (mergeRange f rr m).valueAt k =
      if rr.Contains k then some (f ((m.valueAt k).getD default)) else m.valueAt k := by
  induction m generalizing n rr with
  | nil => rfl
  | cons e m ih =>
    obtain ⟨lr, w⟩ := e
    simp only [ranges_cons, sortedFrom_cons] at hm
    obtain ⟨hlr, hr, hm⟩ := hm
    have hmeets := meets_classifyIntersection lr rr
    rw [mergeRange]
    generalize classifyIntersection lr rr = c at hmeets ⊢
    have hafter : rank k ≤ rank lr.2 → valueAt m k = none :=
      fun hk => valueAt_eq_none hm (Nat.lt_succ_of_le hk)
    have hrest : rank lr.2 < rank rr.2 → rank (succ lr.2) = rank lr.2 + 1 →
        valueAt (mergeRange f (succ lr.2, rr.2) m) k =
          if Range.Contains (succ lr.2, rr.2) k then some (f ((valueAt m k).getD default)) else valueAt m k :=
      fun hlt hsucc => ih (show rank (succ lr.2) ≤ rank rr.2 by omega) hm
    unfold Range.Nonempty at hrr
    cases hmeets with
    | llrr =>
      simp only [valueAt, ih hrr hm]
      split_ifs
      all_goals simp only [Range.Contains] at *
      all_goals first | rfl | omega
    | elr _ hlt hsucc =>
      simp only [valueAt, hrest hlt hsucc]
      split_ifs <;> simp only [Range.Contains] at * <;> first | rfl | omega
    | rllr _ hlt _ hsucc =>
      simp only [valueAt, hrest hlt hsucc]
      split_ifs <;> simp only [Range.Contains] at * <;> first | rfl | omega | rw [hafter (by omega)]; rfl
    | lrlr _ _ hlt _ hsucc =>
      simp only [valueAt, hrest hlt hsucc]
      split_ifs <;> simp only [Range.Contains] at * <;> first | rfl | omega
    | _ =>
      simp only [valueAt]
      split_ifs <;> simp only [Range.Contains] at * <;>
        first | rfl | omega | rw [hafter (by omega)]; rfl

lemma sortedFrom_compactFrom [DecidableEq V] {tr : Range K} {w : V} {n : ℕ} {m : RangeMap K V}
    (hm : SortedFrom n (ranges ((tr, w) :: m))) : SortedFrom n (compactFrom tr w m).ranges := by
  induction m generalizing tr w n with
  | nil => exact hm
  | cons e m ih =>
    obtain ⟨nr, x⟩ := e
    simp only [ranges_cons, sortedFrom_cons] at hm
    obtain ⟨hn, htr, hnext, hnr, hm⟩ := hm
    rw [compactFrom]
    split_ifs
    · exact ih (sortedFrom_entry hn (by omega) hm)
    · exact sortedFrom_entry hn htr (ih (sortedFrom_entry hnext hnr hm))

lemma valueAt_compactFrom [DecidableEq V] {tr : Range K} {w : V} {n : ℕ} {m : RangeMap K V}
    (hm : SortedFrom n (ranges ((tr, w) :: m))) (k : K) :
    (compactFrom tr w m).valueAt k = valueAt ((tr, w) :: m) k := by
  induction m generalizing tr w n with
  | nil => rfl
  | cons e m ih =>
    obtain ⟨nr, x⟩ := e
    simp only [ranges_cons, sortedFrom_cons] at hm
    obtain ⟨hn, htr, hnext, hnr, hm⟩ := hm
    rw [compactFrom]
    split_ifs with h
    · obtain ⟨hpred, rfl⟩ := h
      have hrank : rank (pred nr.1) + 1 = rank nr.1 := rank_pred (Nat.lt_of_succ_le hnext)
      rw [← hpred] at hrank
      rw [ih (sortedFrom_entry hn (by omega) hm)]
      simp only [valueAt]
      split_ifs
      all_goals simp only [Range.Contains] at *
      all_goals first | rfl | omega
    · simp only [valueAt] at ih ⊢
      rw [ih (sortedFrom_entry hnext hnr hm)]

end Changes

/-! ### Lookups -/

section Lookups

variable [RangeOrd K] [LawfulRangeOrd K]

/-- A key is in a range if it is one of its ends or between them. -/
lemma contains_iff {r : Range K} (hr : rank r.1 ≤ rank r.2) {k : K} :
    (k = r.1 ∨ k = r.2 ∨ lt r.1 k && lt k r.2) ↔ r.Contains k := by
  simp only [eq_iff_rank, Bool.and_eq_true, lt_iff_rank, Range.Contains]
  omega

variable [DecidableEq K]

/-- How a key is found in a map that has a range in front. -/
lemma find_cons {n : ℕ} {r : Range K} {v : V} {m : RangeMap K V} (hm : SortedFrom n (ranges ((r, v) :: m)))
    (k : K) : find k ((r, v) :: m) =
      if r.Contains k then 0 else if rank k < rank r.1 then m.length + 1 else find k m + 1 := by
  rw [find]
  simp only [contains_iff hm.2.1, lt_iff_rank]

lemma lookup_eq_valueAt {n : ℕ} {m : RangeMap K V} (hm : SortedFrom n m.ranges) (k : K) :
    m.lookup k = m.valueAt k := by
  induction m generalizing n with
  | nil => rfl
  | cons e m ih =>
    obtain ⟨r, v⟩ := e
    have hih := ih hm.2.2
    rw [lookup] at hih ⊢
    rw [find_cons hm, valueAt]
    split_ifs with hin hbefore
    · rfl
    · have hafter : valueAt m k = none := by
        have hr : rank r.1 ≤ rank r.2 := hm.2.1
        exact valueAt_eq_none hm.2.2 (show rank k < rank r.2 + 1 by omega)
      rw [hafter, List.getElem?_eq_none (by simp), Option.map_none]
    · exact hih

lemma find_eq_length {n : ℕ} {m : RangeMap K V} (hm : SortedFrom n m.ranges) {k : K}
    (hk : ∀ r ∈ m.ranges, ¬ r.Contains k) : find k m = m.length := by
  induction m generalizing n with
  | nil => rfl
  | cons e m ih =>
    obtain ⟨r, v⟩ := e
    rw [find_cons hm, if_neg (hk r List.mem_cons_self)]
    split_ifs
    · rfl
    · rw [ih hm.2.2 fun s hs => hk s (List.mem_cons_of_mem r hs), List.length_cons]

/-- Keys that are in the same ranges are found at the same place. -/
lemma find_congr {n : ℕ} {m : RangeMap K V} (hm : SortedFrom n m.ranges) {a b : K}
    (hab : ∀ r ∈ m.ranges, r.Contains a ↔ r.Contains b) : find a m = find b m := by
  induction m generalizing n with
  | nil => rfl
  | cons e m ih =>
    obtain ⟨r, v⟩ := e
    have hih := ih hm.2.2 fun s hs => hab s (List.mem_cons_of_mem r hs)
    by_cases ha : r.Contains a
    · rw [find_cons hm, find_cons hm, if_pos ha, if_pos ((hab r List.mem_cons_self).1 ha)]
    · have hb : ¬ r.Contains b := fun hb => ha ((hab r List.mem_cons_self).2 hb)
      by_cases hlater : ∃ s ∈ ranges m, s.Contains a
      · obtain ⟨s, hs, hsa⟩ := hlater
        have hsb := (hab s (List.mem_cons_of_mem r hs)).1 hsa
        have hr : rank r.1 ≤ rank r.2 := hm.2.1
        have hle : rank r.2 + 1 ≤ rank s.1 := hm.2.2.le hs
        simp only [Range.Contains] at hsa hsb
        rw [find_cons hm, find_cons hm, if_neg ha, if_neg hb, if_neg (by omega), if_neg (by omega), hih]
      · have hnone : ∀ s ∈ ranges ((r, v) :: m), ¬ s.Contains a := fun s hs =>
          (List.mem_cons.1 hs).elim (fun h => h ▸ ha) fun hs hsa => hlater ⟨s, hs, hsa⟩
        rw [find_eq_length hm hnone, find_eq_length hm fun s hs hsb => hnone s hs ((hab s hs).2 hsb)]

end Lookups

/-! ### Sequences of changes -/

section Runs

inductive Op (K V : Type) where
  | insert (rr : Range K) (v : V)
  | mergeRange (rr : Range K) (f : V → V)
  | compact

variable [RangeOrd K] [LawfulRangeOrd K]

def Op.Valid : Op K V → Prop
  | .insert rr _ | .mergeRange rr _ => rr.Nonempty
  | .compact => True

/-- What a change does to a map that is a function. -/
def Op.spec [Inhabited V] : Op K V → (K → Option V) → K → Option V
  | .insert rr v, g, k => if rr.Contains k then some v else g k
  | .mergeRange rr f, g, k => if rr.Contains k then some (f ((g k).getD default)) else g k
  | .compact, g, k => g k

variable [DecidableEq K] [Inhabited V] [DecidableEq V]

def Op.run : Op K V → RangeMap K V → RangeMap K V
  | .insert rr v, m => m.insert rr v
  | .mergeRange rr f, m => m.mergeRange f rr
  | .compact, m => m.compact

def run (ops : List (Op K V)) : RangeMap K V := ops.foldl (fun m o => o.run m) []

lemma Op.sortedFrom_run {o : Op K V} (ho : o.Valid) {m : RangeMap K V} (hm : SortedFrom 0 m.ranges) :
    SortedFrom 0 (o.run m).ranges := by
  cases o with
  | insert rr v => exact sortedFrom_insert ho v (Nat.zero_le _) hm
  | mergeRange rr f => exact sortedFrom_mergeRange f ho (Nat.zero_le _) hm
  | compact =>
    cases m with
    | nil => trivial
    | cons e m => exact sortedFrom_compactFrom hm

lemma Op.lookup_run {o : Op K V} (ho : o.Valid) {m : RangeMap K V} (hm : SortedFrom 0 m.ranges) :
    (o.run m).lookup = o.spec m.lookup := by
  funext k
  have hspec : o.spec m.lookup k = o.spec m.valueAt k := by
    cases o <;> simp only [Op.spec, lookup_eq_valueAt hm]
  rw [hspec, lookup_eq_valueAt (sortedFrom_run ho hm)]
  cases o with
  | insert rr v => exact valueAt_insert ho v hm k
  | mergeRange rr f => exact valueAt_mergeRange f ho hm k
  | compact =>
    cases m with
    | nil => rfl
    | cons e m => exact valueAt_compactFrom hm k

lemma sortedFrom_run {ops : List (Op K V)} (hops : ∀ o ∈ ops, o.Valid) : SortedFrom 0 (run ops).ranges := by
  induction ops using List.reverseRecOn with
  | nil => trivial
  | append_singleton ops o ih =>
    rw [run, List.foldl_append]
    exact Op.sortedFrom_run (hops o (by simp)) (ih fun o' ho' => hops o' (List.mem_append_left _ ho'))

end Runs

/-- After any changes, the ranges have keys and come one after the other, and one more change does to the
lookups what it does to a function. -/
theorem lookup_pointwise [Inhabited V] [DecidableEq V] (ops : List (Op UInt8 V)) (hops : ∀ o ∈ ops, o.Valid) :
    Sorted (run ops).ranges ∧
      ∀ o : Op UInt8 V, o.Valid → (o.run (run ops)).lookup = o.spec (run ops).lookup :=
  ⟨(sortedFrom_run hops).sorted, fun _ ho => Op.lookup_run ho (sortedFrom_run hops)⟩

theorem lookup_pointwise_letters :
    Sorted (run [.insert (97, 122) 1, .mergeRange (100, 200) (· + 1), .compact] : RangeMap UInt8 ℕ).ranges ∧
      ∀ o : Op UInt8 ℕ, o.Valid →
        (o.run (run [.insert (97, 122) 1, .mergeRange (100, 200) (· + 1), .compact])).lookup =
          o.spec (run [.insert (97, 122) 1, .mergeRange (100, 200) (· + 1), .compact]).lookup := by
  refine lookup_pointwise _ fun o ho => ?_
  simp only [List.mem_cons, List.not_mem_nil, or_false] at ho
  rcases ho with rfl | rfl | rfl
  · show (97 : UInt8).toNat ≤ (122 : UInt8).toNat
    decide
  · show (100 : UInt8).toNat ≤ (200 : UInt8).toNat
    decide
  · trivial

end RangeMap

end Hobbes.Regex
