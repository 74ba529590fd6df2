import Hobbes.Regex.RangeMap

/-!
# Sweeps

What `disjointRanges` does with the ranges of a map and the ranges of a list: its steps, and the order and the
keys of what comes out.
-/

namespace Hobbes.Regex

open RangeOrd LawfulRangeOrd

variable {K V : Type}

section Sweep

variable [RangeOrd K] [DecidableEq K]

/-- The loop, with what is left of the two lists. -/
def sweep : List (Range K) → List (Range K) → List (Range K)
  | [], rrs => rrs
  | lr :: lrs, [] => lr :: lrs
  | lr :: lrs, rr :: rrs =>
    match classifyIntersection lr rr with
    | .llrr => lr :: sweep lrs (rr :: rrs)
    | .rrll => rr :: sweep (lr :: lrs) rrs
    | .ee => lr :: sweep lrs rrs
    | .elr => lr :: sweep lrs ((succ lr.2, rr.2) :: rrs)
    | .erl => rr :: sweep ((succ rr.2, lr.2) :: lrs) rrs
    | .lre => (lr.1, pred rr.1) :: rr :: sweep lrs rrs
    | .rle => (rr.1, pred lr.1) :: lr :: sweep lrs rrs
    | .lrrl => (lr.1, pred rr.1) :: rr :: sweep ((succ rr.2, lr.2) :: lrs) rrs
    | .rllr => (rr.1, pred lr.1) :: lr :: sweep lrs ((succ lr.2, rr.2) :: rrs)
    | .lrlr =>
      (lr.1, pred rr.1) :: (if rr.1 ≠ lr.2 then [(rr.1, pred lr.2)] else []) ++
        sweep lrs ((lr.2, rr.2) :: rrs)
    | .rlrl =>
      (rr.1, pred lr.1) :: (if lr.1 ≠ rr.2 then [(lr.1, pred rr.2)] else []) ++
        sweep ((rr.2, lr.2) :: lrs) rrs
termination_by lrs rrs => lrs.length + rrs.length

def RangeMap.disjointRanges (m : RangeMap K V) (trs : List (Range K)) : List (Range K) := sweep m.ranges trs

end Sweep

/-! ### Steps -/

section Steps

variable [RangeOrd K] [LawfulRangeOrd K]

def Covers (rs : List (Range K)) (k : K) : Prop := ∃ r ∈ rs, r.Contains k

lemma covers_nil {k : K} : Covers [] k ↔ False := by
  simp [Covers]

lemma covers_cons {r : Range K} {rs : List (Range K)} {k : K} :
    Covers (r :: rs) k ↔ r.Contains k ∨ Covers rs k := by
  simp [Covers]

/-- The key numbered `p` and the next one are together in a range. -/
def Inside (rs : List (Range K)) (p : ℕ) : Prop := ∃ r ∈ rs, rank r.1 ≤ p ∧ p < rank r.2

lemma inside_nil {p : ℕ} : Inside ([] : List (Range K)) p ↔ False := by
  simp [Inside]

lemma inside_cons {r : Range K} {rs : List (Range K)} {p : ℕ} :
    Inside (r :: rs) p ↔ (rank r.1 ≤ p ∧ p < rank r.2) ∨ Inside rs p := by
  simp [Inside]

/-- The first range ends in the middle of the second one, which started later. -/
def Overlap (l r : Range K) : Prop := rank l.1 < rank r.1 ∧ rank r.1 ≤ rank l.2 ∧ rank l.2 < rank r.2

/-- What is left of a range where the keys below `t` have been dealt with, and the ranges that end at `e`. -/
inductive Rest (r : Range K) (e t : ℕ) : Option (Range K) → Prop
  | none : rank r.2 = e → Rest r e t none
  | some {r' : Range K} : e < rank r.2 → rank r'.1 = max (rank r.1) t → rank r'.2 = rank r.2 → Rest r e t (some r')

/-- What one step does with the first two ranges. -/
structure Cut (lr rr : Range K) (ps : List (Range K)) (lo ro : Option (Range K)) (e t : ℕ) : Prop where
  sorted : ∀ n ≤ rank lr.1, n ≤ rank rr.1 → SortedFrom n ps
  below : ∀ x ∈ ps, rank x.2 < t
  covers : ∀ k, Covers ps k ↔ (lr.Contains k ∨ rr.Contains k) ∧ rank k < t
  clean : ∀ p, Inside ps p → rank lr.1 ≠ p + 1 ∧ rank rr.1 ≠ p + 1 ∧ rank lr.2 ≠ p ∧ rank rr.2 ≠ p
  whole : ∀ x ∈ ps, rank x.2 + 1 = t ∨ rank x.2 + 1 = rank lr.1 ∨ rank x.2 + 1 = rank rr.1
  left : Rest lr e t lo
  right : Rest rr e t ro
  stop : rank lr.2 = e ∨ rank rr.2 = e
  carry : t = e + 1 ∧ ¬ Overlap lr rr ∧ ¬ Overlap rr lr ∨ t = e ∧ (Overlap lr rr ∨ Overlap rr lr)

inductive Sweeps : List (Range K) → List (Range K) → List (Range K) → Prop
  | left (ls : List (Range K)) : Sweeps ls [] ls
  | right (rs : List (Range K)) : Sweeps [] rs rs
  | cut {lr rr : Range K} {lrs rrs ps out : List (Range K)} {lo ro : Option (Range K)} {e t : ℕ}
      (h : Cut lr rr ps lo ro e t) (hout : Sweeps (lo.toList ++ lrs) (ro.toList ++ rrs) out) :
      Sweeps (lr :: lrs) (rr :: rrs) (ps ++ out)

lemma Cut.symm {lr rr : Range K} {ps : List (Range K)} {lo ro : Option (Range K)} {e t : ℕ}
    (h : Cut lr rr ps lo ro e t) : Cut rr lr ps ro lo e t where
  sorted n hr hl := h.sorted n hl hr
  below := h.below
  covers k := by rw [h.covers, or_comm]
  clean p hp := by
    have hclean := h.clean p hp
    omega
  whole x hx := (h.whole x hx).imp_right Or.symm
  left := h.right
  right := h.left
  stop := h.stop.symm
  carry := h.carry.imp (fun ⟨ht, hl, hr⟩ => ⟨ht, hr, hl⟩) (And.imp_right Or.symm)

lemma cut_same {lr rr : Range K} (hl : rank lr.1 ≤ rank lr.2) (h : rank lr.1 = rank rr.1)
    (h' : rank lr.2 = rank rr.2) : Cut lr rr [lr] none none (rank lr.2) (rank lr.2 + 1) where
  sorted n hn _ := ⟨hn, hl, trivial⟩
  below x hx := by
    obtain rfl := List.mem_singleton.1 hx
    exact Nat.lt_succ_self _
  covers k := by
    simp only [covers_cons, covers_nil, or_false, Range.Contains]
    omega
  clean p := by
    simp only [inside_cons, inside_nil, or_false]
    omega
  whole x hx := by
    obtain rfl := List.mem_singleton.1 hx
    exact .inl rfl
  left := .none rfl
  right := .none h'.symm
  stop := .inl rfl
  carry := .inl ⟨rfl, by unfold Overlap; omega, by unfold Overlap; omega⟩

lemma cut_before {lr rr : Range K} (hl : rank lr.1 ≤ rank lr.2) (hr : rank rr.1 ≤ rank rr.2)
    (h : rank lr.2 < rank rr.1) : Cut lr rr [lr] none (some rr) (rank lr.2) (rank lr.2 + 1) where
  sorted n hn _ := ⟨hn, hl, trivial⟩
  below x hx := by
    obtain rfl := List.mem_singleton.1 hx
    exact Nat.lt_succ_self _
  covers k := by
    simp only [covers_cons, covers_nil, or_false, Range.Contains]
    omega
  clean p := by
    simp only [inside_cons, inside_nil, or_false]
    omega
  whole x hx := by
    obtain rfl := List.mem_singleton.1 hx
    exact .inl rfl
  left := .none rfl
  right := .some (by omega) (by omega) rfl
  stop := .inl rfl
  carry := .inl ⟨rfl, by unfold Overlap; omega, by unfold Overlap; omega⟩

lemma cut_start {lr rr : Range K} (hl : rank lr.1 ≤ rank lr.2) (h : rank lr.1 = rank rr.1)
    (h' : rank lr.2 < rank rr.2) {s : K} (hs : rank s = rank lr.2 + 1) :
    Cut lr rr [lr] none (some (s, rr.2)) (rank lr.2) (rank lr.2 + 1) where
  sorted n hn _ := ⟨hn, hl, trivial⟩
  below x hx := by
    obtain rfl := List.mem_singleton.1 hx
    exact Nat.lt_succ_self _
  covers k := by
    simp only [covers_cons, covers_nil, or_false, Range.Contains]
    omega
  clean p := by
    simp only [inside_cons, inside_nil, or_false]
    omega
  whole x hx := by
    obtain rfl := List.mem_singleton.1 hx
    exact .inl rfl
  left := .none rfl
  right := .some h' (by simp only; omega) rfl
  stop := .inl rfl
  carry := .inl ⟨rfl, by unfold Overlap; omega, by unfold Overlap; omega⟩

lemma cut_end {lr rr : Range K} (hr : rank rr.1 ≤ rank rr.2) (h : rank lr.1 < rank rr.1)
    (h' : rank lr.2 = rank rr.2) {q : K} (hq : rank q + 1 = rank rr.1) :
    Cut lr rr [(lr.1, q), rr] none none (rank lr.2) (rank lr.2 + 1) where
  sorted n hn _ := by
    simp only [SortedFrom, Range.Nonempty, and_true]
    omega
  below x hx := by
    simp only [List.mem_cons, List.not_mem_nil, or_false] at hx
    rcases hx with rfl | rfl
    · simp only
      omega
    · omega
  covers k := by
    simp only [covers_cons, covers_nil, or_false, Range.Contains]
    omega
  clean p := by
    simp only [inside_cons, inside_nil, or_false]
    omega
  whole x hx := by
    simp only [List.mem_cons, List.not_mem_nil, or_false] at hx
    rcases hx with rfl | rfl
    · exact .inr (.inr hq)
    · exact .inl (by omega)
  left := .none rfl
  right := .none h'.symm
  stop := .inl rfl
  carry := .inl ⟨rfl, by unfold Overlap; omega, by unfold Overlap; omega⟩

lemma cut_middle {lr rr : Range K} (hr : rank rr.1 ≤ rank rr.2) (h : rank lr.1 < rank rr.1)
    (h' : rank rr.2 < rank lr.2) {q s : K} (hq : rank q + 1 = rank rr.1) (hs : rank s = rank rr.2 + 1) :
    Cut lr rr [(lr.1, q), rr] (some (s, lr.2)) none (rank rr.2) (rank rr.2 + 1) where
  sorted n hn _ := by
    simp only [SortedFrom, Range.Nonempty, and_true]
    omega
  below x hx := by
    simp only [List.mem_cons, List.not_mem_nil, or_false] at hx
    rcases hx with rfl | rfl
    · simp only
      omega
    · omega
  covers k := by
    simp only [covers_cons, covers_nil, or_false, Range.Contains]
    omega
  clean p := by
    simp only [inside_cons, inside_nil, or_false]
    omega
  whole x hx := by
    simp only [List.mem_cons, List.not_mem_nil, or_false] at hx
    rcases hx with rfl | rfl
    · exact .inr (.inr hq)
    · exact .inl rfl
  left := .some h' (by simp only; omega) rfl
  right := .none rfl
  stop := .inr rfl
  carry := .inl ⟨rfl, by unfold Overlap; omega, by unfold Overlap; omega⟩

/-- The second range keeps the last key of the first one. -/
lemma cut_overlap [DecidableEq K] {lr rr : Range K} (h : Overlap lr rr) {q q' : K} (hq : rank q + 1 = rank rr.1)
    (hq' : rank rr.1 < rank lr.2 → rank q' + 1 = rank lr.2) :
    Cut lr rr ((lr.1, q) :: if rr.1 ≠ lr.2 then [(rr.1, q')] else []) none (some (lr.2, rr.2))
      (rank lr.2) (rank lr.2) := by
  obtain ⟨h1, h2, h3⟩ := h
  have hcarry : Overlap lr rr := ⟨h1, h2, h3⟩
  by_cases heq : rr.1 = lr.2
  · have hrank := congrArg rank heq
    rw [if_neg (not_not.2 heq)]
    exact {
      sorted := fun n hn _ => ⟨hn, by simp only [Range.Nonempty]; omega, trivial⟩
      below := fun x hx => by
        obtain rfl := List.mem_singleton.1 hx
        simp only
        omega
      covers := fun k => by
        simp only [covers_cons, covers_nil, or_false, Range.Contains]
        omega
      clean := fun p => by
        simp only [inside_cons, inside_nil, or_false]
        omega
      whole := fun x hx => by
        obtain rfl := List.mem_singleton.1 hx
        exact .inr (.inr hq)
      left := .none rfl
      right := .some h3 (by simp only; omega) rfl
      stop := .inl rfl
      carry := .inr ⟨rfl, .inl hcarry⟩ }
  · have hlt : rank rr.1 < rank lr.2 := Nat.lt_of_le_of_ne h2 fun hrank => heq (rank_inj hrank)
    have hpred := hq' hlt
    rw [if_pos heq]
    exact {
      sorted := fun n hn _ => by
        simp only [SortedFrom, Range.Nonempty, and_true]
        omega
      below := fun x hx => by
        simp only [List.mem_cons, List.not_mem_nil, or_false] at hx
        rcases hx with rfl | rfl <;> simp only <;> omega
      covers := fun k => by
        simp only [covers_cons, covers_nil, or_false, Range.Contains]
        omega
      clean := fun p => by
        simp only [inside_cons, inside_nil, or_false]
        omega
      whole := fun x hx => by
        simp only [List.mem_cons, List.not_mem_nil, or_false] at hx
        rcases hx with rfl | rfl
        · exact .inr (.inr hq)
        · exact .inl hpred
      left := .none rfl
      right := .some h3 (by simp only; omega) rfl
      stop := .inl rfl
      carry := .inr ⟨rfl, .inl hcarry⟩ }

lemma SortedFrom.replace {r : Range K} {rs : List (Range K)} (h : SortedFrom 0 (r :: rs)) {a : K}
    (ha : rank a ≤ rank r.2) : SortedFrom 0 ((a, r.2) :: rs) :=
  ⟨Nat.zero_le _, ha, h.2.2⟩

/-- Every step of the loop is one of these, one way or the other. -/
lemma sweeps_sweep [DecidableEq K] {ls rs : List (Range K)} (hls : SortedFrom 0 ls) (hrs : SortedFrom 0 rs) :
    Sweeps ls rs (sweep ls rs) := by
  match ls, rs with
  | [], rs =>
    rw [sweep]
    exact .right rs
  | lr :: lrs, [] =>
    rw [sweep]
    exact .left _
  | lr :: lrs, rr :: rrs =>
    obtain ⟨-, hl, hlrs⟩ := sortedFrom_cons.1 hls
    obtain ⟨-, hr, hrrs⟩ := sortedFrom_cons.1 hrs
    replace hlrs := hlrs.mono (Nat.zero_le _)
    replace hrrs := hrrs.mono (Nat.zero_le _)
    have hmeets := meets_classifyIntersection lr rr
    rw [sweep]
    generalize classifyIntersection lr rr = c at hmeets ⊢
    cases hmeets with
    | llrr h => exact .cut (cut_before hl hr h) (sweeps_sweep hlrs hrs)
    | rrll h => exact .cut (cut_before hr hl h).symm (sweeps_sweep hls hrrs)
    | ee h h' => exact .cut (cut_same hl h h') (sweeps_sweep hlrs hrrs)
    | elr h h' hs =>
      exact .cut (cut_start hl h h' hs) (sweeps_sweep hlrs (hrs.replace (by omega)))
    | erl h h' hs =>
      exact .cut (cut_start hr h.symm h' hs).symm (sweeps_sweep (hls.replace (by omega)) hrrs)
    | lre h h' hq => exact .cut (cut_end hr h h' hq) (sweeps_sweep hlrs hrrs)
    | rle h h' hq => exact .cut (cut_end hl h h'.symm hq).symm (sweeps_sweep hlrs hrrs)
    | lrrl h h' hq hs =>
      exact .cut (cut_middle hr h h' hq hs) (sweeps_sweep (hls.replace (by omega)) hrrs)
    | rllr h h' hq hs =>
      exact .cut (cut_middle hl h h' hq hs).symm (sweeps_sweep hlrs (hrs.replace (by omega)))
    | lrlr h h' h'' hq hs =>
      exact .cut (cut_overlap ⟨h, h', h''⟩ hq rank_pred)
        (sweeps_sweep hlrs (hrs.replace (by omega)))
    | rlrl h h' h'' hq hs =>
      exact .cut (cut_overlap ⟨h, h', h''⟩ hq rank_pred).symm
        (sweeps_sweep (hls.replace (by omega)) hrrs)
termination_by ls.length + rs.length
decreasing_by
  all_goals
    simp only [List.length_append, List.length_cons, Option.toList_none, Option.toList_some, List.length_nil]
    omega

lemma Sweeps.symm {ls rs out : List (Range K)} (h : Sweeps ls rs out) : Sweeps rs ls out := by
  induction h with
  | left ls => exact .right ls
  | right rs => exact .left rs
  | cut h _ ih => exact .cut h.symm ih

end Steps

/-! ### Order and union -/

section Union

variable [RangeOrd K] [LawfulRangeOrd K]

lemma Cut.bounds {lr rr : Range K} {ps : List (Range K)} {lo ro : Option (Range K)} {e t : ℕ}
    (h : Cut lr rr ps lo ro e t) : e ≤ rank lr.2 ∧ e ≤ rank rr.2 ∧ e ≤ t ∧ t ≤ e + 1 := by
  have hl : e ≤ rank lr.2 := by
    cases h.left <;> omega
  have hr : e ≤ rank rr.2 := by
    cases h.right <;> omega
  have hcarry := h.carry
  omega

lemma Rest.sortedFrom {r : Range K} {rs : List (Range K)} {o : Option (Range K)} {n e t : ℕ}
    (h : Rest r e t o) (ht : t ≤ e + 1) (hrs : SortedFrom n (r :: rs)) :
    SortedFrom t (o.toList ++ rs) := by
  obtain ⟨-, hr, hrs⟩ := sortedFrom_cons.1 hrs
  cases h with
  | none he => exact hrs.mono (by omega)
  | some he h1 h2 => exact sortedFrom_cons.2 ⟨by omega, by omega, hrs.mono (by omega)⟩

lemma SortedFrom.append {n t : ℕ} {ps out : List (Range K)} (hps : SortedFrom n ps)
    (hbelow : ∀ x ∈ ps, rank x.2 < t) (hnt : n ≤ t) (hout : SortedFrom t out) :
    SortedFrom n (ps ++ out) := by
  induction ps generalizing n with
  | nil => exact hout.mono hnt
  | cons x ps ih =>
    rw [List.forall_mem_cons] at hbelow
    exact ⟨hps.1, hps.2.1, ih hps.2.2 hbelow.2 hbelow.1⟩

lemma Sweeps.sortedFrom {n : ℕ} {ls rs out : List (Range K)} (h : Sweeps ls rs out) (hls : SortedFrom n ls)
    (hrs : SortedFrom n rs) : SortedFrom n out := by
  induction h generalizing n with
  | left ls => exact hls
  | right rs => exact hrs
  | @cut lr rr _ _ _ _ _ _ _ _ hcut _ ih =>
    obtain ⟨hl, hr, het, hte⟩ := hcut.bounds
    have hout := ih (hcut.left.sortedFrom hte hls) (hcut.right.sortedFrom hte hrs)
    have hnl := (sortedFrom_cons.1 hls).1
    have hnr := (sortedFrom_cons.1 hrs).1
    have hlr := (sortedFrom_cons.1 hls).2.1
    have hrr := (sortedFrom_cons.1 hrs).2.1
    have hstop := hcut.stop
    exact (hcut.sorted n hnl hnr).append hcut.below (by omega) hout

lemma covers_append {ps out : List (Range K)} {k : K} :
    Covers (ps ++ out) k ↔ Covers ps k ∨ Covers out k := by
  simp only [Covers, List.mem_append, or_and_right, exists_or]

lemma not_covers_of_lt {n : ℕ} {rs : List (Range K)} (h : SortedFrom n rs) {k : K} (hk : rank k < n) :
    ¬ Covers rs k := by
  rintro ⟨r, hr, hin⟩
  have hle := h.le hr
  unfold Range.Contains at hin
  omega

/-- Of the keys that have not been dealt with, a rest has all but a last one that the other range keeps. -/
lemma Rest.covers_iff {r : Range K} {rs : List (Range K)} {o : Option (Range K)} {e t : ℕ}
    (h : Rest r e t o) {k : K} (hk : t ≤ rank k) :
    Covers (o.toList ++ rs) k ↔ (e < rank r.2 ∧ r.Contains k) ∨ Covers rs k := by
  cases h with
  | none he =>
    show Covers rs k ↔ _
    constructor
    · exact .inr
    · rintro (⟨hlt, -⟩ | hrs)
      · omega
      · exact hrs
  | some he h1 h2 =>
    rw [covers_append, Option.toList_some, covers_cons, covers_nil, or_false]
    refine or_congr_left ?_
    simp only [Range.Contains]
    omega

/-- A key that has not been dealt with is in a range that goes on. -/
lemma Cut.keys_iff {lr rr : Range K} {ps : List (Range K)} {lo ro : Option (Range K)} {e t : ℕ}
    (h : Cut lr rr ps lo ro e t) {k : K} (hk : t ≤ rank k) :
    lr.Contains k ∨ rr.Contains k ↔
      (e < rank lr.2 ∧ lr.Contains k) ∨ (e < rank rr.2 ∧ rr.Contains k) := by
  obtain ⟨hl, hr, -, -⟩ := h.bounds
  have hstop := h.stop
  rcases h.carry with ⟨rfl, -, -⟩ | ⟨rfl, ⟨h1, h2, h3⟩ | ⟨h1, h2, h3⟩⟩
  · simp only [Range.Contains]
    omega
  · simp only [Range.Contains]
    omega
  · simp only [Range.Contains]
    omega

lemma Sweeps.covers_iff {n : ℕ} {ls rs out : List (Range K)} (h : Sweeps ls rs out) (hls : SortedFrom n ls)
    (hrs : SortedFrom n rs) (k : K) : Covers out k ↔ Covers ls k ∨ Covers rs k := by
  induction h generalizing n with
  | left ls => rw [covers_nil, or_false]
  | right rs => rw [covers_nil, false_or]
  | @cut lr rr lrs rrs _ _ _ _ e t hcut hsweeps ih =>
    obtain ⟨hl, hr, het, hte⟩ := hcut.bounds
    have hls' := hcut.left.sortedFrom hte hls
    have hrs' := hcut.right.sortedFrom hte hrs
    rw [covers_append, hcut.covers, covers_cons, covers_cons]
    by_cases hk : rank k < t
    · have hlrs : ¬ Covers lrs k := not_covers_of_lt hls.2.2 (by omega)
      have hrrs : ¬ Covers rrs k := not_covers_of_lt hrs.2.2 (by omega)
      have hout := not_covers_of_lt (hsweeps.sortedFrom hls' hrs') hk
      simp only [hk, hlrs, hrrs, hout, and_true, or_false]
    · have hk' : t ≤ rank k := Nat.le_of_not_lt hk
      rw [ih hls' hrs', hcut.left.covers_iff hk', hcut.right.covers_iff hk']
      simp only [hk, and_false, false_or]
      rw [or_or_or_comm, ← hcut.keys_iff hk', or_or_or_comm]

/-! ### Starts -/

lemma inside_append {ps out : List (Range K)} {p : ℕ} :
    Inside (ps ++ out) p ↔ Inside ps p ∨ Inside out p := by
  simp only [Inside, List.mem_append, or_and_right, exists_or]

lemma Inside.le {n p : ℕ} {rs : List (Range K)} (h : Inside rs p) (hrs : SortedFrom n rs) : n ≤ p := by
  obtain ⟨r, hr, hle, -⟩ := h
  exact Nat.le_trans (hrs.le hr) hle

lemma Cut.inside_lt {lr rr : Range K} {ps : List (Range K)} {lo ro : Option (Range K)} {e t p : ℕ}
    (h : Cut lr rr ps lo ro e t) (hp : Inside ps p) : p + 1 < t := by
  obtain ⟨x, hx, -, hlt⟩ := hp
  have hbelow := h.below x hx
  omega

lemma SortedFrom.start_ne {n p : ℕ} {rs : List (Range K)} (h : SortedFrom n rs) (hp : Inside rs p) :
    ∀ r ∈ rs, rank r.1 ≠ p + 1 := by
  induction rs generalizing n with
  | nil => exact fun _ hr => absurd hr List.not_mem_nil
  | cons r rs ih =>
    obtain ⟨-, hr, hrs⟩ := sortedFrom_cons.1 h
    rw [List.forall_mem_cons]
    rcases inside_cons.1 hp with hp | hp
    · refine ⟨by omega, fun s hs => ?_⟩
      have hle := hrs.le hs
      omega
    · have hle := hp.le hrs
      exact ⟨by omega, ih hrs hp⟩

lemma Rest.start_ne {r : Range K} {rs : List (Range K)} {o : Option (Range K)} {e t p : ℕ} (h : Rest r e t o)
    (hp : t ≤ p) (he : e ≤ p) (hr : rank r.1 ≤ rank r.2)
    (hrs : ∀ s ∈ o.toList ++ rs, rank s.1 ≠ p + 1) : rank r.1 ≠ p + 1 := by
  cases h with
  | none he' => omega
  | some _ h1 _ =>
    have hne := hrs _ List.mem_cons_self
    omega

/-- No range of the lists starts inside a range of the refinement. -/
lemma Sweeps.start_ne {n : ℕ} {ls rs out : List (Range K)} (h : Sweeps ls rs out) (hls : SortedFrom n ls)
    (hrs : SortedFrom n rs) {p : ℕ} (hp : Inside out p) :
    (∀ l ∈ ls, rank l.1 ≠ p + 1) ∧ ∀ r ∈ rs, rank r.1 ≠ p + 1 := by
  induction h generalizing n with
  | left ls => exact ⟨hls.start_ne hp, fun _ hr => absurd hr List.not_mem_nil⟩
  | right rs => exact ⟨fun _ hl => absurd hl List.not_mem_nil, hrs.start_ne hp⟩
  | @cut lr rr lrs rrs _ _ _ _ e t hcut hsweeps ih =>
    obtain ⟨hl, hr, het, hte⟩ := hcut.bounds
    have hls' := hcut.left.sortedFrom hte hls
    have hrs' := hcut.right.sortedFrom hte hrs
    rw [List.forall_mem_cons, List.forall_mem_cons]
    rcases inside_append.1 hp with hp | hp
    · have hclean := hcut.clean p hp
      have hlt := hcut.inside_lt hp
      refine ⟨⟨hclean.1, fun l hl' => ?_⟩, hclean.2.1, fun r hr' => ?_⟩
      · have hle := hls.2.2.le hl'
        omega
      · have hle := hrs.2.2.le hr'
        omega
    · have hle := hp.le (hsweeps.sortedFrom hls' hrs')
      obtain ⟨hihl, hihr⟩ := ih hls' hrs' hp
      exact ⟨⟨hcut.left.start_ne hle (Nat.le_trans het hle) hls.2.1 hihl,
          fun l hl' => hihl l (List.mem_append_right _ hl')⟩,
        hcut.right.start_ne hle (Nat.le_trans het hle) hrs.2.1 hihr, fun r hr' => hihr r (List.mem_append_right _ hr')⟩

end Union

end Hobbes.Regex
