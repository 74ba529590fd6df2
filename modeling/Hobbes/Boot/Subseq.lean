import Hobbes.Boot.Arrays
import Hobbes.Core.Lists
import Mathlib.Order.Bounds.Basic

/-!
# Subsequences

Two searches for a part of an array: one compares at each position, and the other goes through both arrays with two
indices and gives their difference. The second one stops at the end of the array, also within a part that has matched so
far.
-/

namespace Hobbes.Boot

open Core

variable {α β : Type*} (eqv : α → β → Bool)

lemma lt_length_of_getElem? {γ : Type*} {xs : List γ} {i : ℕ} {x : γ} (h : xs[i]? = some x) : i < xs.length :=
  (List.getElem?_eq_some_iff.mp h).1

def findSubseqStep (s : List α) (ss : List β) (i j : ℕ) : Option ℕ :=
  if i = s.length ∨ j = ss.length then some (i - j)
  else
    match h : s[i]?, h' : ss[j]? with
    | some x, some y =>
      if eqv x y then findSubseqStep s ss (i + 1) (j + 1) else findSubseqStep s ss (i - j + 1) 0
    | _, _ => none
termination_by (s.length + 1 - (i - j), ss.length - j)
decreasing_by
  · have hj := lt_length_of_getElem? h'
    rw [Nat.add_sub_add_right]
    exact .right _ (by omega)
  · have hi := lt_length_of_getElem? h
    exact .left _ _ (by omega)

def findSubseq (s : List α) (ss : List β) : Option ℕ := findSubseqStep eqv s ss 0 0

def lsplit (s : List α) (ss : List β) : Option (List α × List α) :=
  (findSubseq eqv s ss).bind fun n =>
    (selectRange s 0 n).bind fun l => (selectRange s (n + ss.length) s.length).map fun r => (l, r)

def equivAt (u : List β) (i : ℕ) (v : List α) (j : ℕ) : Option Bool :=
  if i = u.length then some true
  else if j = v.length then some false
  else
    match v[j]?, h : u[i]? with
    | some y, some x => if eqv y x then equivAt u (i + 1) v (j + 1) else some false
    | _, _ => none
termination_by u.length - i
decreasing_by
  have hi := lt_length_of_getElem? h
  omega

def subSeqInAt (u : List β) (v : List α) (i : ℕ) : Option Bool :=
  if (v.length : ℤ) - i < u.length then some false
  else (equivAt eqv u 0 v i).bind fun b => if b then some true else subSeqInAt u v (i + 1)
termination_by v.length + 1 - i

/-- `x in xs`, of a sub-array. -/
def isSubSeqIn (x : List β) (xs : List α) : Option Bool := subSeqInAt eqv x xs 0

/-! ### Occurrences -/

/-- The array starts with elements that are equivalent to those of the other one. -/
def startsWith : List α → List β → Bool
  | _, [] => true
  | [], _ :: _ => false
  | x :: s, y :: ss => eqv x y && startsWith s ss

/-- All elements of the array are equivalent to the first ones of the other one. -/
def endsWithin : List α → List β → Bool
  | [], _ => true
  | _ :: _, [] => false
  | x :: s, y :: ss => eqv x y && endsWithin s ss

def OccursAt (s : List α) (ss : List β) (k : ℕ) : Prop := startsWith eqv (s.drop k) ss

/-- The end of the array from `k` on is the beginning of an occurrence that is cut off. -/
def CutOffAt (s : List α) (ss : List β) (k : ℕ) : Prop := endsWithin eqv (s.drop k) ss

variable {eqv}

@[simp] lemma startsWith_nil (s : List α) : startsWith eqv s [] = true := by cases s <;> rfl

@[simp] lemma endsWithin_nil (ss : List β) : endsWithin eqv [] ss = true := by cases ss <;> rfl

lemma length_le_of_startsWith {s : List α} {ss : List β} (h : startsWith eqv s ss) : ss.length ≤ s.length := by
  induction s generalizing ss with
  | nil =>
    cases ss with
    | nil => exact le_rfl
    | cons y ss => exact absurd h Bool.false_ne_true
  | cons x s ih =>
    cases ss with
    | nil => exact Nat.zero_le _
    | cons y ss =>
      rw [startsWith, Bool.and_eq_true] at h
      exact Nat.succ_le_succ (ih h.2)

lemma length_le_of_endsWithin {s : List α} {ss : List β} (h : endsWithin eqv s ss) : s.length ≤ ss.length := by
  induction s generalizing ss with
  | nil => exact Nat.zero_le _
  | cons x s ih =>
    cases ss with
    | nil => exact absurd h Bool.false_ne_true
    | cons y ss =>
      rw [endsWithin, Bool.and_eq_true] at h
      exact Nat.succ_le_succ (ih h.2)

/-- An occurrence as a part of the array. -/
lemma forall₂_of_startsWith {s : List α} {ss : List β} (h : startsWith eqv s ss) :
    List.Forall₂ (fun x y => eqv x y) (s.take ss.length) ss := by
  induction s generalizing ss with
  | nil =>
    cases ss with
    | nil => exact .nil
    | cons y ss => exact absurd h Bool.false_ne_true
  | cons x s ih =>
    cases ss with
    | nil => exact .nil
    | cons y ss =>
      rw [startsWith, Bool.and_eq_true] at h
      exact .cons h.1 (ih h.2)

lemma startsWith_of_forall₂ {m : List α} {ss : List β} (h : List.Forall₂ (fun x y => eqv x y) m ss) (r : List α) :
    startsWith eqv (m ++ r) ss := by
  induction h with
  | nil => exact startsWith_nil r
  | cons hxy _ ih =>
    rw [List.cons_append, startsWith, Bool.and_eq_true]
    exact ⟨hxy, ih⟩

lemma OccursAt.add_le {s : List α} {ss : List β} {k : ℕ} (h : OccursAt eqv s ss k) (hss : ss ≠ []) :
    k + ss.length ≤ s.length := by
  have hle := length_le_of_startsWith h
  have hpos := List.length_pos_of_ne_nil hss
  rw [List.length_drop] at hle
  omega

lemma cutOffAt_length (s : List α) (ss : List β) : CutOffAt eqv s ss s.length := by
  rw [CutOffAt, List.drop_length]
  exact endsWithin_nil ss

/-- No occurrence starts behind one that is cut off. -/
lemma OccursAt.le_of_cutOffAt {s : List α} {ss : List β} {k l : ℕ} (h : OccursAt eqv s ss k) (hss : ss ≠ [])
    (hl : CutOffAt eqv s ss l) : k ≤ l := by
  have hk := h.add_le hss
  have hle := length_le_of_endsWithin hl
  rw [List.length_drop] at hle
  omega

/-! ### The search with two indices -/

/-- It stops at the first index where the part occurs or is cut off. What has been compared so far has matched. -/
lemma findSubseqStep_spec {s : List α} {ss : List β} {i j : ℕ} (hi : i ≤ s.length) (hj : j ≤ ss.length)
    (hstarts : OccursAt eqv s ss (i - j) ↔ startsWith eqv (s.drop i) (ss.drop j))
    (hends : CutOffAt eqv s ss (i - j) ↔ endsWithin eqv (s.drop i) (ss.drop j)) :
    ∃ r, findSubseqStep eqv s ss i j = some r ∧
      IsLeast {k | i - j ≤ k ∧ (OccursAt eqv s ss k ∨ CutOffAt eqv s ss k)} r := by
  by_cases hstop : i = s.length ∨ j = ss.length
  · refine ⟨i - j, by rw [findSubseqStep, if_pos hstop], ⟨le_rfl, ?_⟩, fun k hk => hk.1⟩
    rcases hstop with rfl | rfl
    · exact .inr (hends.mpr (by rw [List.drop_length]; exact endsWithin_nil _))
    · exact .inl (hstarts.mpr (by rw [List.drop_length]; exact startsWith_nil _))
  · obtain ⟨x, hx⟩ : ∃ x, s[i]? = some x := ⟨_, List.getElem?_eq_getElem (by omega)⟩
    obtain ⟨y, hy⟩ : ∃ y, ss[j]? = some y := ⟨_, List.getElem?_eq_getElem (by omega)⟩
    have hstep : findSubseqStep eqv s ss i j =
        if eqv x y then findSubseqStep eqv s ss (i + 1) (j + 1) else findSubseqStep eqv s ss (i - j + 1) 0 := by
      rw [findSubseqStep, if_neg hstop]
      split
      · next x' y' hx' hy' =>
        rw [hx, Option.some.injEq] at hx'
        rw [hy, Option.some.injEq] at hy'
        rw [hx', hy']
      · next hno => exact absurd hy (hno x y hx)
    rw [drop_eq_cons hx, drop_eq_cons hy, startsWith, Bool.and_eq_true] at hstarts
    rw [drop_eq_cons hx, drop_eq_cons hy, endsWithin, Bool.and_eq_true] at hends
    rw [hstep]
    by_cases hxy : eqv x y
    · rw [if_pos hxy]
      rw [and_iff_right hxy] at hstarts hends
      have ih := @findSubseqStep_spec s ss (i + 1) (j + 1) (by omega) (by omega)
        (by rwa [Nat.add_sub_add_right]) (by rwa [Nat.add_sub_add_right])
      rwa [Nat.add_sub_add_right] at ih
    · rw [if_neg hxy]
      obtain ⟨r, hr, ⟨hle, hmem⟩, hleast⟩ := @findSubseqStep_spec s ss (i - j + 1) 0 (by omega)
        (Nat.zero_le _) .rfl .rfl
      refine ⟨r, hr, ⟨by omega, hmem⟩, fun k ⟨hk, hk'⟩ => hleast ⟨?_, hk'⟩⟩
      -- neither stops here
      rcases Nat.eq_or_lt_of_le hk with rfl | hlt
      · rcases hk' with h | h
        · exact absurd (hstarts.mp h).1 hxy
        · exact absurd (hends.mp h).1 hxy
      · exact hlt
termination_by (s.length + 1 - (i - j), ss.length - j)
decreasing_by
  · rw [Nat.add_sub_add_right]
    exact .right _ (by omega)
  · exact .left _ _ (by omega)

/-! ### The search that compares at each position -/

lemma equivAt_eq {u : List β} {v : List α} {i j : ℕ} (hi : i ≤ u.length) (hj : j ≤ v.length) :
    equivAt eqv u i v j = some (startsWith eqv (v.drop j) (u.drop i)) := by
  rw [equivAt]
  rcases Nat.eq_or_lt_of_le hi with rfl | hi
  · rw [if_pos rfl, List.drop_length, startsWith_nil]
  obtain ⟨x, hx⟩ : ∃ x, u[i]? = some x := ⟨_, List.getElem?_eq_getElem hi⟩
  rw [if_neg hi.ne, drop_eq_cons hx]
  rcases Nat.eq_or_lt_of_le hj with rfl | hj
  · rw [if_pos rfl, List.drop_length]
    rfl
  obtain ⟨y, hy⟩ : ∃ y, v[j]? = some y := ⟨_, List.getElem?_eq_getElem hj⟩
  rw [if_neg hj.ne, drop_eq_cons hy, startsWith]
  split
  · next y' x' hy' hx' =>
    rw [hy, Option.some.injEq] at hy'
    rw [hx, Option.some.injEq] at hx'
    rw [← hy', ← hx']
    by_cases hyx : eqv y x
    · rw [if_pos hyx, hyx, Bool.true_and, equivAt_eq hi hj]
    · rw [if_neg hyx, Bool.eq_false_of_not_eq_true hyx, Bool.false_and]
  · next hno => exact absurd hx (hno y x hy)
termination_by u.length - i

lemma subSeqInAt_eq {u : List β} {v : List α} {i : ℕ} (hi : i ≤ v.length + 1) (hu : u ≠ []) :
    ∃ b, subSeqInAt eqv u v i = some b ∧ (b ↔ ∃ k, i ≤ k ∧ OccursAt eqv v u k) := by
  have hpos := List.length_pos_of_ne_nil hu
  rw [subSeqInAt]
  by_cases hshort : (v.length : ℤ) - i < u.length
  · rw [if_pos hshort]
    refine ⟨false, rfl, iff_of_false Bool.false_ne_true fun ⟨k, hk, hocc⟩ => ?_⟩
    have := hocc.add_le hu
    omega
  · rw [if_neg hshort, equivAt_eq (Nat.zero_le _) (by omega), Option.bind_some, List.drop_zero]
    by_cases hocc : startsWith eqv (v.drop i) u
    · rw [if_pos hocc]
      exact ⟨true, rfl, iff_of_true rfl ⟨i, le_rfl, hocc⟩⟩
    · rw [if_neg hocc]
      obtain ⟨b, hb, hiff⟩ := @subSeqInAt_eq u v (i + 1) (by omega) hu
      refine ⟨b, hb, hiff.trans (exists_congr fun k => ?_)⟩
      constructor
      · exact fun ⟨hk, h⟩ => ⟨by omega, h⟩
      · rintro ⟨hk, h⟩
        rcases Nat.eq_or_lt_of_le hk with rfl | hlt
        · exact absurd h hocc
        · exact ⟨hlt, h⟩
termination_by v.length + 1 - i

lemma isSubSeqIn_eq {s : List α} {ss : List β} (hss : ss ≠ []) :
    ∃ b, isSubSeqIn eqv ss s = some b ∧ (b ↔ ∃ k, OccursAt eqv s ss k) := by
  obtain ⟨b, hb, hiff⟩ := subSeqInAt_eq (Nat.zero_le _) hss
  exact ⟨b, hb, hiff.trans (exists_congr fun k => and_iff_right (Nat.zero_le k))⟩

/-! ### What is found -/

/-- The first index where the part occurs, or the length of the array. -/
def FoundAt (eqv : α → β → Bool) (s : List α) (ss : List β) (n : ℕ) : Prop :=
  IsLeast {k | OccursAt eqv s ss k} n ∨ (∀ k, ¬ OccursAt eqv s ss k) ∧ n = s.length

/-- The parts before and behind the first occurrence, or the whole array and nothing. -/
def SplitAt (eqv : α → β → Bool) (s : List α) (ss : List β) (l r : List α) : Prop :=
  (∃ m, s = l ++ m ++ r ∧ List.Forall₂ (fun x y => eqv x y) m ss ∧ ∀ k < l.length, ¬ OccursAt eqv s ss k) ∨
    (∀ k, ¬ OccursAt eqv s ss k) ∧ l = s ∧ r = []

/-- The part occurs, or no end of the array is a beginning of the part. -/
def Decided (eqv : α → β → Bool) (s : List α) (ss : List β) : Prop :=
  (∃ k, OccursAt eqv s ss k) ∨ ∀ k < s.length, ¬ CutOffAt eqv s ss k

lemma findSubseq_spec (eqv : α → β → Bool) (s : List α) (ss : List β) : ∃ n, findSubseq eqv s ss = some n ∧
    IsLeast {k | OccursAt eqv s ss k ∨ CutOffAt eqv s ss k} n := by
  obtain ⟨n, hn, hleast⟩ := @findSubseqStep_spec _ _ eqv s ss 0 0 (Nat.zero_le _) (Nat.zero_le _) .rfl .rfl
  refine ⟨n, hn, ?_⟩
  simpa only [Nat.sub_zero, Nat.zero_le, true_and] using hleast

section Found

variable {s : List α} {ss : List β} {n : ℕ} (hss : ss ≠ [])
  (hn : IsLeast {k | OccursAt eqv s ss k ∨ CutOffAt eqv s ss k} n)

include hss hn in
/-- Where the part occurs, the search stops there. -/
lemma isLeast_of_occursAt {k : ℕ} (hk : OccursAt eqv s ss k) : IsLeast {k | OccursAt eqv s ss k} n := by
  refine ⟨?_, fun l hl => hn.2 (.inl hl)⟩
  rcases hn.1 with h | h
  · exact h
  · obtain rfl : n = k := le_antisymm (hn.2 (.inl hk)) (hk.le_of_cutOffAt hss h)
    exact hk

include hn in
/-- Where it does not, the search stops at the end if no end of the array is a beginning of the part. -/
lemma eq_length_iff (hno : ∀ k, ¬ OccursAt eqv s ss k) :
    n = s.length ↔ ∀ k < s.length, ¬ CutOffAt eqv s ss k := by
  constructor
  · rintro rfl k hk hcut
    exact absurd (hn.2 (.inr hcut)) (not_le.mpr hk)
  · intro h
    refine le_antisymm (hn.2 (.inr (cutOffAt_length s ss))) (not_lt.mp fun hlt => ?_)
    rcases hn.1 with hocc | hcut
    · exact hno n hocc
    · exact h n hlt hcut

include hss hn in
lemma foundAt_iff : FoundAt eqv s ss n ↔ Decided eqv s ss := by
  by_cases hocc : ∃ k, OccursAt eqv s ss k
  · obtain ⟨k, hk⟩ := hocc
    exact iff_of_true (.inl (isLeast_of_occursAt hss hn hk)) (.inl ⟨k, hk⟩)
  · have hno : ∀ k, ¬ OccursAt eqv s ss k := fun k hk => hocc ⟨k, hk⟩
    rw [FoundAt, Decided, or_iff_right fun h => hno n h.1, or_iff_right hocc, and_iff_right hno, eq_length_iff hn hno]

include hss hn in
lemma occurs_iff_lt_iff : ((∃ k, OccursAt eqv s ss k) ↔ n < s.length) ↔ Decided eqv s ss := by
  by_cases hocc : ∃ k, OccursAt eqv s ss k
  · obtain ⟨k, hk⟩ := hocc
    have hleast := isLeast_of_occursAt hss hn hk
    have hadd := OccursAt.add_le hleast.1 hss
    have hpos := List.length_pos_of_ne_nil hss
    exact iff_of_true (iff_of_true ⟨k, hk⟩ (by omega)) (.inl ⟨k, hk⟩)
  · have hno : ∀ k, ¬ OccursAt eqv s ss k := fun k hk => hocc ⟨k, hk⟩
    have hle : n ≤ s.length := hn.2 (.inr (cutOffAt_length s ss))
    rw [Decided, or_iff_right hocc, iff_false_left hocc, ← eq_length_iff hn hno]
    omega

include hss hn in
lemma splitAt_iff : SplitAt eqv s ss (s.take n) (s.drop (n + ss.length)) ↔ Decided eqv s ss := by
  have hle : n ≤ s.length := hn.2 (.inr (cutOffAt_length s ss))
  by_cases hocc : ∃ k, OccursAt eqv s ss k
  · obtain ⟨k, hk⟩ := hocc
    have hleast := isLeast_of_occursAt hss hn hk
    refine iff_of_true (.inl ⟨(s.drop n).take ss.length, ?_, forall₂_of_startsWith hleast.1, fun l hl hocc => ?_⟩)
      (.inl ⟨k, hk⟩)
    · rw [List.append_assoc, ← List.drop_drop, List.take_append_drop, List.take_append_drop]
    · rw [List.length_take] at hl
      have := hleast.2 hocc
      omega
  · have hno : ∀ k, ¬ OccursAt eqv s ss k := fun k hk => hocc ⟨k, hk⟩
    rw [Decided, or_iff_right hocc, ← eq_length_iff hn hno]
    constructor
    · rintro (⟨m, hs, hm, _⟩ | ⟨_, hl, _⟩)
      · -- a part between the two would be an occurrence
        refine absurd ?_ (hno (s.take n).length)
        rw [OccursAt]
        conv => enter [1, 2, 2]; rw [hs]
        rw [List.append_assoc, List.drop_left]
        exact startsWith_of_forall₂ hm _
      · have := congrArg List.length hl
        rw [List.length_take] at this
        omega
    · rintro rfl
      exact .inr ⟨hno, List.take_length, List.drop_of_length_le (Nat.le_add_right _ _)⟩

end Found

lemma lsplit_eq {s : List α} {ss : List β} {n : ℕ} (hn : findSubseq eqv s ss = some n) :
    lsplit eqv s ss = some (s.take n, s.drop (n + ss.length)) := by
  have hleft : selectRange s 0 n = some (s.take n) := selectRange_eq s 0 n
  have hright : selectRange s (n + ss.length) s.length = some (s.drop (n + ss.length)) := by
    rw [← Int.natCast_add, selectRange_eq, List.take_length]
  rw [lsplit, hn, Option.bind_some, hleft, Option.bind_some, hright, Option.map_some]

/-- The search ends and stays in bounds. It finds the part where it is, and if it is nowhere this is found out exactly
where no end of the array is a beginning of the part. -/
theorem findSubseq_iff (eqv : α → β → Bool) (s : List α) {ss : List β} (hss : ss ≠ []) :
    ∃ n b l r, findSubseq eqv s ss = some n ∧ isSubSeqIn eqv ss s = some b ∧ lsplit eqv s ss = some (l, r) ∧
      (b ↔ ∃ k, OccursAt eqv s ss k) ∧
      (FoundAt eqv s ss n ↔ Decided eqv s ss) ∧
      ((b ↔ n < s.length) ↔ Decided eqv s ss) ∧
      (SplitAt eqv s ss l r ↔ Decided eqv s ss) := by
  obtain ⟨n, hn, hleast⟩ := findSubseq_spec eqv s ss
  obtain ⟨b, hb, hiff⟩ := @isSubSeqIn_eq _ _ eqv s ss hss
  refine ⟨n, b, _, _, hn, hb, lsplit_eq hn, hiff, foundAt_iff hss hleast, ?_, splitAt_iff hss hleast⟩
  rw [hiff]
  exact occurs_iff_lt_iff hss hleast

theorem findSubseq_iff_bool : [true, false] ≠ [] ∧
    ∃ n b l r, findSubseq (· == ·) [true, true, false] [true, false] = some n ∧
      isSubSeqIn (· == ·) [true, false] [true, true, false] = some b ∧
      lsplit (· == ·) [true, true, false] [true, false] = some (l, r) ∧
      (b ↔ ∃ k, OccursAt (· == ·) [true, true, false] [true, false] k) ∧
      (FoundAt (· == ·) [true, true, false] [true, false] n ↔ Decided (· == ·) [true, true, false] [true, false]) ∧
      ((b ↔ n < [true, true, false].length) ↔ Decided (· == ·) [true, true, false] [true, false]) ∧
      (SplitAt (· == ·) [true, true, false] [true, false] l r ↔
        Decided (· == ·) [true, true, false] [true, false]) := by
  have hss : [true, false] ≠ [] := by decide
  exact ⟨hss, findSubseq_iff (· == ·) [true, true, false] hss⟩

/-- "bc" does not occur in "aab", but the search gives 2: the last character has matched when the array ends. -/
theorem not_findSubseq :
    ¬ ∀ n, findSubseq (· == ·) [97, 97, 98] [98, 99] = some n → FoundAt (· == ·) [97, 97, 98] [98, 99] n := by
  intro h
  obtain ⟨n, hn, hleast⟩ := findSubseq_spec (· == ·) [97, 97, 98] [98, 99]
  rcases (foundAt_iff (by decide) hleast).mp (h n hn) with ⟨k, hk⟩ | hno
  · have hle := OccursAt.add_le hk (by decide)
    match k, hk with
    | 0, hk => exact absurd hk (show ¬ startsWith (· == ·) [97, 97, 98] [98, 99] by decide)
    | 1, hk => exact absurd hk (show ¬ startsWith (· == ·) [97, 98] [98, 99] by decide)
    | k + 2, _ => exact absurd hle (by simp)
  · exact hno 2 (by decide) (show endsWithin (· == ·) [98] [98, 99] by decide)

end Hobbes.Boot
