import Hobbes.Boot.Arrays
import Mathlib.Algebra.Order.Ring.Int
import Mathlib.Data.Nat.Cast.Order.Ring

/-!
# Ropes

A rope is a list of arrays, newest array first and oldest element first in each array. It is accessed as one array that
goes from the newest element to the oldest.
-/

namespace Hobbes.Boot

open Core

variable {α β ρ σ : Type*}

/-! ### The class `Array` -/

structure ArrayClass (σ α : Type*) where
  size : σ → Option ℤ
  element : σ → ℤ → Option α
  elements : σ → ℤ → ℤ → Option (List α)

def writeAt (ss : Slots α) (j : ℤ) (x : α) : Option (Slots α) := if 0 ≤ j then ss.write j.toNat x else none

/-- From above `e` it does not end. -/
def selectElementsInto (xs : σ) (lkup : σ → ℤ → Option α) (i e : ℤ) (ss : Slots α) (j step : ℤ) : Option (Slots α) :=
  if i = e then some ss
  else if e < i then none
  else
    (lkup xs i).bind fun x => (writeAt ss j x).bind fun ss => selectElementsInto xs lkup (i + 1) e ss (j + step) step
termination_by (e - i).toNat

def defElementsWith (xs : σ) (lkup : σ → ℤ → Option α) (i e : ℤ) : Option (List α) :=
  (selectElementsInto xs lkup i e (Slots.alloc (e - i).toNat) 0 1).bind Slots.elems

/-- `instance Array [a] a` -/
def arrays : ArrayClass (List α) α where
  size xs := some xs.length
  element := index
  elements xs i e := defElementsWith xs index i e

def reverse (xs : List α) : Option (List α) :=
  (selectElementsInto xs index 0 xs.length (Slots.alloc xs.length) (xs.length - 1) (-1)).bind Slots.elems

/-- Normalize an index for array slicing. -/
def normIdx (A : ArrayClass σ α) (xs : σ) (ci : ℤ) : Option ℤ :=
  (A.size xs).map fun n => if ci < 0 then max 0 (n + ci) else min ci n

/-- `xs[i:j]`: a subsequence of an array, either forward or backward. -/
def slice (A : ArrayClass σ α) (xs : σ) (i j : ℤ) : Option (List α) :=
  (normIdx A xs i).bind fun ni => (normIdx A xs j).bind fun nj =>
    if ni < nj then A.elements xs ni nj else (A.elements xs nj ni).bind reverse

/-! ### The laws of the class -/

/-- `xs` is accessed as if it were the array `flat`. -/
structure ArrayClass.Views (A : ArrayClass σ α) (xs : σ) (flat : List α) : Prop where
  size : A.size xs = some (flat.length : ℤ)
  element (i : ℕ) (x : α) (h : flat[i]? = some x) : A.element xs i = some x
  elements (i e : ℕ) (h : i ≤ e) (he : e ≤ flat.length) : A.elements xs i e = some ((flat.take e).drop i)

/-- Fill an array from the front. -/
lemma selectElementsInto_forward {xs : σ} {lkup : σ → ℤ → Option α} {i e : ℤ} {zs : List α} (ys : List α)
    (he : e = i + zs.length) (h : ∀ (n : ℕ) x, zs[n]? = some x → lkup xs (i + n) = some x) :
    selectElementsInto xs lkup i e (Slots.filledTo ys zs.length) ys.length 1 =
      some (Slots.filledTo (ys ++ zs) 0) := by
  induction zs generalizing i ys with
  | nil =>
    rw [List.length_nil, Nat.cast_zero, add_zero] at he
    rw [selectElementsInto, if_pos he.symm, List.length_nil, List.append_nil]
  | cons z zs ih =>
    rw [List.length_cons, Nat.cast_add, Nat.cast_one] at he
    have hz : lkup xs i = some z := by simpa using h 0 z rfl
    have hstep := @ih (i + 1) (ys ++ [z]) (by omega) fun n x hx => by
      have := h (n + 1) x hx
      rwa [Nat.cast_add, Nat.cast_one, add_comm (n : ℤ), ← add_assoc] at this
    rw [List.length_append, List.length_singleton, Nat.cast_add, Nat.cast_one, List.append_assoc,
      List.singleton_append] at hstep
    rw [selectElementsInto, if_neg (by omega), if_neg (by omega), hz, Option.bind_some, writeAt,
      if_pos (Int.natCast_nonneg _), Int.toNat_natCast, List.length_cons, Slots.write_filledTo, Option.bind_some, hstep]

/-- Fill an array from the back. -/
lemma selectElementsInto_backward {xs : σ} {lkup : σ → ℤ → Option α} {i e : ℤ} {zs : List α} (ys : List α)
    (he : e = i + zs.length) (h : ∀ (n : ℕ) x, zs[n]? = some x → lkup xs (i + n) = some x) :
    selectElementsInto xs lkup i e (List.replicate zs.length none ++ ys.map some) (zs.length - 1) (-1) =
      some ((zs.reverse ++ ys).map some) := by
  induction zs generalizing i ys with
  | nil =>
    rw [List.length_nil, Nat.cast_zero, add_zero] at he
    rw [selectElementsInto, if_pos he.symm]
    rfl
  | cons z zs ih =>
    rw [List.length_cons, Nat.cast_add, Nat.cast_one] at he
    have hz : lkup xs i = some z := by simpa using h 0 z rfl
    have hstep := @ih (i + 1) (z :: ys) (by omega) fun n x hx => by
      have := h (n + 1) x hx
      rwa [Nat.cast_add, Nat.cast_one, add_comm (n : ℤ), ← add_assoc] at this
    have hwrite : writeAt (List.replicate (zs.length + 1) none ++ ys.map some) (zs.length : ℤ) z =
        some (List.replicate zs.length none ++ (z :: ys).map some) := by
      have hroom : zs.length < (List.replicate (zs.length + 1) (none : Option α) ++ ys.map some).length := by
        rw [List.length_append, List.length_replicate]
        omega
      rw [writeAt, if_pos (Int.natCast_nonneg _), Int.toNat_natCast, Slots.write, put_of_lt hroom,
        List.replicate_succ', List.append_assoc, List.set_append_right _ _ (by rw [List.length_replicate]),
        List.length_replicate, Nat.sub_self]
      rfl
    rw [selectElementsInto, if_neg (by omega), if_neg (by omega), hz, Option.bind_some, List.length_cons, Nat.cast_add,
      Nat.cast_one, add_sub_cancel_right, hwrite, Option.bind_some, ← sub_eq_add_neg, hstep, List.reverse_cons,
      List.append_assoc, List.singleton_append]

lemma arrays_views (xs : List α) : arrays.Views xs xs where
  size := rfl
  element i x h := (index_natCast xs i).trans h
  elements i e h he := by
    have hlen : ((xs.take e).drop i).length = e - i := by
      rw [List.length_drop, List.length_take, min_eq_left he]
    have hfill := @selectElementsInto_forward _ _ xs index i e ((xs.take e).drop i) [] (by omega) fun n x hx => by
      rw [List.getElem?_drop, List.getElem?_take] at hx
      rw [← Nat.cast_add, index_natCast]
      split_ifs at hx
      exact hx
    have hroom : ((e : ℤ) - i).toNat = ((xs.take e).drop i).length := by omega
    change defElementsWith xs index i e = _
    rw [defElementsWith, hroom, Slots.alloc_eq]
    exact (congrArg (Option.bind · Slots.elems) hfill).trans (Slots.elems_filledTo _)

lemma reverse_eq (xs : List α) : reverse xs = some xs.reverse := by
  have hfill := @selectElementsInto_backward _ _ xs index 0 xs.length xs [] (zero_add _).symm fun n x hx => by
    rw [zero_add, index_natCast, hx]
  rw [List.map_nil, List.append_nil, List.append_nil] at hfill
  rw [reverse, Slots.alloc, hfill, Option.bind_some, Slots.elems_map]

/-- The position in an array of `n` elements that an index of a slice stands for. -/
def position (n : ℕ) (i : ℤ) : ℕ := if i < 0 then (n + i).toNat else min i.toNat n

lemma position_le (n : ℕ) (i : ℤ) : position n i ≤ n := by
  rw [position]
  split_ifs <;> omega

namespace ArrayClass.Views

variable {A : ArrayClass σ α} {xs : σ} {flat : List α}

lemma normIdx_eq (h : A.Views xs flat) (i : ℤ) : normIdx A xs i = some (position flat.length i : ℤ) := by
  rw [normIdx, h.size, Option.map_some, position]
  split_ifs <;> exact congrArg some (by omega)

/-- What a slice is, forward and backward. -/
lemma slice_eq (h : A.Views xs flat) (i j : ℤ) :
    slice A xs i j =
      some (if position flat.length i < position flat.length j then
        (flat.take (position flat.length j)).drop (position flat.length i)
      else ((flat.take (position flat.length i)).drop (position flat.length j)).reverse) := by
  simp only [slice, h.normIdx_eq, Option.bind_some, Nat.cast_lt]
  split_ifs with hlt
  · rw [h.elements _ _ hlt.le (position_le _ _)]
  · rw [h.elements _ _ (not_lt.mp hlt) (position_le _ _), Option.bind_some, reverse_eq]

end ArrayClass.Views

/-- The backward slice that cuts out elements at positions counted from the end. -/
lemma slice_from_end {xs : List α} {p q : ℕ} (hpq : p ≤ q) (hq : q ≤ xs.length) :
    slice arrays xs (xs.length - p) (xs.length - q) = some ((xs.reverse.take q).drop p) := by
  have hp : position xs.length (xs.length - p) = xs.length - p := by
    rw [position]
    split_ifs <;> omega
  have hq' : position xs.length (xs.length - q) = xs.length - q := by
    rw [position]
    split_ifs <;> omega
  have hlen : (xs.drop (xs.length - q)).length = q := by
    rw [List.length_drop]
    omega
  have hdiff : xs.length - p - (xs.length - q) = q - p := by omega
  rw [(arrays_views xs).slice_eq, hp, hq', if_neg (by omega), List.take_reverse, List.drop_reverse, hlen,
    List.drop_take, hdiff]

/-! ### Ropes in memory -/

def lfoldl (f : β → α → β) (s : β) : List α → β
  | [] => s
  | x :: xs => lfoldl f (f s x) xs

def lfindS (s : β) (ss : β → α → β) (p : β → α → Bool) : List α → Option (β × α)
  | [] => none
  | h :: t => if p s h then some (s, h) else lfindS (ss s h) ss p t

/-- The parts of the arrays from position `i` up to position `e`, where `k` elements are before the first array. -/
def lfindSliceSpan : List (List α) → ℤ → ℤ → ℤ → Option (List (List α))
  | [], _, _, _ => some []
  | xs :: t, k, i, e =>
    if k < e then
      let nk := k + xs.length
      if nk < i then lfindSliceSpan t nk i e
      else
        (slice arrays xs (xs.length - max 0 (i - k)) (xs.length - min (xs.length : ℤ) (e - k))).bind fun part =>
          (lfindSliceSpan t nk i e).map fun parts => part :: parts
    else some []

/-- `instance Array (^x.(()+([a]*x))) a`. The value of an element that is not found is not determined. -/
def ropes : ArrayClass (List (List α)) α where
  size xs := some (lfoldl (fun s (vs : List α) => s + vs.length) 0 xs)
  element xs i :=
    (lfindS i (fun j (vs : List α) => j - vs.length) (fun j vs => j < vs.length) xs).bind fun (j, vs) =>
      index vs (vs.length - (j + 1))
  elements xs i e := (lfindSliceSpan xs 0 i e).bind fun xss => (toArray xss).bind concat

/-- The elements of a rope, from the newest to the oldest. -/
def flat (xss : List (List α)) : List α := xss.flatMap List.reverse

lemma flat_cons (xs : List α) (xss : List (List α)) : flat (xs :: xss) = xs.reverse ++ flat xss :=
  List.flatMap_cons

lemma lfoldl_size (xss : List (List α)) (s : ℤ) :
    lfoldl (fun (s : ℤ) (vs : List α) => s + vs.length) s xss = s + (flat xss).length := by
  induction xss generalizing s with
  | nil => exact (add_zero s).symm
  | cons xs xss ih =>
    rw [lfoldl, ih, flat_cons, List.length_append, List.length_reverse, Nat.cast_add, add_assoc]

/-- An element is found in the array that its position falls in. -/
lemma lfindS_spec {xss : List (List α)} {i : ℕ} {x : α} (h : (flat xss)[i]? = some x) :
    ∃ (j : ℕ) (vs : List α), vs.reverse[j]? = some x ∧
      lfindS (i : ℤ) (fun j (vs : List α) => j - vs.length) (fun j vs => j < vs.length) xss = some ((j : ℤ), vs) := by
  induction xss generalizing i with
  | nil => cases h
  | cons xs xss ih =>
    rw [flat_cons, List.getElem?_append, List.length_reverse] at h
    rw [lfindS]
    split_ifs at h with hlt
    · exact ⟨i, xs, h, if_pos (by simpa using hlt)⟩
    · obtain ⟨j, vs, hx, hfind⟩ := ih h
      rw [Nat.cast_sub (not_lt.mp hlt)] at hfind
      exact ⟨j, vs, hx, by rw [if_neg (by simpa using hlt), hfind]⟩

lemma index_from_end {xs : List α} {j : ℕ} {x : α} (h : xs.reverse[j]? = some x) :
    index xs (xs.length - (j + 1)) = some x := by
  have hj : j < xs.length := by
    have := (List.getElem?_eq_some_iff.mp h).1
    rwa [List.length_reverse] at this
  have hpos : (xs.length : ℤ) - (j + 1) = ((xs.length - 1 - j : ℕ) : ℤ) := by omega
  rw [List.getElem?_reverse hj] at h
  rw [hpos, index_natCast, h]

/-- A slice of the rope takes a slice of its first array and a slice of the others. -/
lemma flat_cons_slice (xs : List α) (xss : List (List α)) (i e : ℕ) :
    ((flat (xs :: xss)).take e).drop i =
      (xs.reverse.take e).drop i ++ ((flat xss).take (e - xs.length)).drop (i - min e xs.length) := by
  rw [flat_cons, List.take_append, List.drop_append, List.length_take, List.length_reverse]

lemma lfindSliceSpan_spec (xss : List (List α)) (k i e : ℕ) (h : i ≤ e) :
    ∃ parts, lfindSliceSpan xss k i e = some parts ∧ parts.flatten = ((flat xss).take (e - k)).drop (i - k) := by
  induction xss generalizing k with
  | nil => exact ⟨[], rfl, by simp [flat]⟩
  | cons xs xss ih =>
    obtain ⟨parts, hparts, hflat⟩ := ih (k + xs.length)
    rw [Nat.cast_add] at hparts
    have hdone : e - (k + xs.length) = e - k - xs.length := by omega
    rw [lfindSliceSpan, flat_cons_slice]
    split_ifs with hk
    · simp only
      split_ifs with hskip
      · -- The whole array comes before the slice.
        have hnil : (xs.reverse.take (e - k)).drop (i - k) = [] := by
          rw [List.drop_eq_nil_iff, List.length_take, List.length_reverse]
          omega
        have hi : i - k - min (e - k) xs.length = i - (k + xs.length) := by omega
        exact ⟨parts, hparts, by rw [hflat, hnil, List.nil_append, hi, hdone]⟩
      · have hp : max 0 ((i : ℤ) - k) = ((i - k : ℕ) : ℤ) := by omega
        have hq : min (xs.length : ℤ) ((e : ℤ) - k) = ((min (e - k) xs.length : ℕ) : ℤ) := by omega
        have hcut := @slice_from_end _ xs (i - k) (min (e - k) xs.length) (by omega) (by omega)
        have hi : i - k - min (e - k) xs.length = i - (k + xs.length) := by omega
        have htake : xs.reverse.take (min (e - k) xs.length) = xs.reverse.take (e - k) := by
          rw [← List.length_reverse, ← List.take_eq_take_min]
        refine ⟨(xs.reverse.take (e - k)).drop (i - k) :: parts, ?_, ?_⟩
        · rw [hp, hq, hcut, htake, Option.bind_some, hparts, Option.map_some]
        · rw [List.flatten_cons, hflat, hi, hdone]
    · -- The slice ends before the array.
      have he : e - k = 0 := by omega
      refine ⟨[], rfl, ?_⟩
      rw [he, List.take_zero, Nat.zero_sub, List.take_zero, List.drop_nil, List.drop_nil]
      rfl

lemma ropes_views (xss : List (List α)) : ropes.Views xss (flat xss) where
  size := by
    change some (lfoldl _ _ _) = _
    rw [lfoldl_size, zero_add]
  element i x h := by
    obtain ⟨j, vs, hx, hfind⟩ := lfindS_spec h
    change (lfindS _ _ _ _).bind _ = _
    rw [hfind]
    exact index_from_end hx
  elements i e h he := by
    obtain ⟨parts, hparts, hflat⟩ := lfindSliceSpan_spec xss 0 i e h
    change (lfindSliceSpan xss 0 i e).bind _ = _
    rw [Nat.cast_zero] at hparts
    rw [hparts, Option.bind_some, toArray_eq, Option.bind_some, concat_eq, hflat, Nat.sub_zero, Nat.sub_zero]

/-! ### Stored ropes -/

/-- A list in memory, empty or of a reference to the first array and one to the list of the others. -/
abbrev Node (ρ : Type*) := Option (ρ × ρ)

structure Store (ρ α : Type*) where
  array : ρ → Option (List α)
  node : ρ → Option (Node ρ)

namespace Store

variable (s : Store ρ α)

/-- The list is a chain of the batches `xss`. -/
inductive Chain : Node ρ → List (List α) → Prop
  | nil : Chain none []
  | cons {h t : ρ} {xs : List α} {n : Node ρ} {xss : List (List α)} (hh : s.array h = some xs)
    (ht : s.node t = some n) (hn : Chain n xss) : Chain (some (h, t)) (xs :: xss)

end Store

/-- `fuel` bounds the number of calls, as it does below. -/
def flfoldl (s : Store ρ α) (f : β → ρ → Option β) : ℕ → β → Node ρ → Option β
  | 0, _, _ => none
  | _ + 1, b, none => some b
  | fuel + 1, b, some (h, t) => (f b h).bind fun b => (s.node t).bind fun t => flfoldl s f fuel b t

def flfindS (s : Store ρ α) (ss : β → ρ → Option β) (p : β → ρ → Option Bool) : ℕ → β → Node ρ → Option (Option (β × ρ))
  | 0, _, _ => none
  | _ + 1, _, none => some none
  | fuel + 1, b, some (h, t) =>
    (p b h).bind fun found =>
      if found then some (some (b, h))
      else (ss b h).bind fun b => (s.node t).bind fun t => flfindS s ss p fuel b t

def flfindSliceSpan (s : Store ρ α) : ℕ → Node ρ → ℤ → ℤ → ℤ → Option (List (List α))
  | 0, _, _, _, _ => none
  | _ + 1, none, _, _, _ => some []
  | fuel + 1, some (h, t), k, i, e =>
    if k < e then
      (s.array h).bind fun xs =>
        let nk := k + xs.length
        if nk < i then (s.node t).bind fun t => flfindSliceSpan s fuel t nk i e
        else
          (slice arrays xs (xs.length - max 0 (i - k)) (xs.length - min (xs.length : ℤ) (e - k))).bind fun part =>
            (s.node t).bind fun t => (flfindSliceSpan s fuel t nk i e).map fun parts => part :: parts
    else some []

/-- `instance Array (^x.(()+([a]@f*x@f))) a` -/
def storedRopes (s : Store ρ α) (fuel : ℕ) : ArrayClass (Node ρ) α where
  size xs := flfoldl s (fun b vs => (s.array vs).map fun vs => b + vs.length) fuel 0 xs
  element xs i :=
    (flfindS s (fun (j : ℤ) vs => (s.array vs).map fun vs => j - vs.length)
      (fun j vs => (s.array vs).map fun vs => j < vs.length) fuel i xs).bind fun found =>
        found.bind fun (j, vs) => (s.array vs).bind fun lvs => index lvs (lvs.length - (j + 1))
  elements xs i e := (flfindSliceSpan s fuel xs 0 i e).bind fun xss => (toArray xss).bind concat

/-- `instance Array (^x.(()+([a]@f*x@f)))@f a` -/
def loadedRopes (s : Store ρ α) (fuel : ℕ) : ArrayClass ρ α where
  size xs := (s.node xs).bind fun xs => (storedRopes s fuel).size xs
  element xs i := (s.node xs).bind fun xs => (storedRopes s fuel).element xs i
  elements xs i e := (s.node xs).bind fun xs => (storedRopes s fuel).elements xs i e

namespace Store.Chain

variable {s : Store ρ α} {n : Node ρ} {xss : List (List α)} {fuel : ℕ}

lemma flfoldl_eq (f : β → List α → β) (h : s.Chain n xss) (hfuel : xss.length < fuel) (b : β) :
    flfoldl s (fun b vs => (s.array vs).map (f b)) fuel b n = some (lfoldl f b xss) := by
  induction h generalizing fuel b with
  | nil =>
    obtain ⟨fuel, rfl⟩ := Nat.exists_eq_add_one.mpr hfuel
    rfl
  | @cons v t xs n xss hh ht hn ih =>
    obtain ⟨fuel, rfl⟩ := Nat.exists_eq_add_one.mpr (Nat.zero_lt_of_lt hfuel)
    rw [flfoldl, hh, Option.map_some, Option.bind_some, ht, Option.bind_some, ih (Nat.lt_of_succ_lt_succ hfuel), lfoldl]

/-- What is found is a reference to the array that is found in memory. -/
lemma flfindS_eq (ss : β → List α → β) (p : β → List α → Bool) (h : s.Chain n xss) (hfuel : xss.length < fuel)
    (b : β) :
    ∃ found,
      flfindS s (fun b vs => (s.array vs).map (ss b)) (fun b vs => (s.array vs).map (p b)) fuel b n = some found ∧
      (found.bind fun r => (s.array r.2).map fun xs => (r.1, xs)) = lfindS b ss p xss := by
  induction h generalizing fuel b with
  | nil =>
    obtain ⟨fuel, rfl⟩ := Nat.exists_eq_add_one.mpr hfuel
    exact ⟨none, rfl, rfl⟩
  | @cons v t xs n xss hh ht hn ih =>
    obtain ⟨fuel, rfl⟩ := Nat.exists_eq_add_one.mpr (Nat.zero_lt_of_lt hfuel)
    rw [flfindS, hh, Option.map_some, Option.bind_some, lfindS]
    split_ifs with hfound
    · exact ⟨some (b, v), rfl, by rw [Option.bind_some, hh, Option.map_some]⟩
    · obtain ⟨found, hfind, heq⟩ := ih (Nat.lt_of_succ_lt_succ hfuel) (ss b xs)
      exact ⟨found, by rw [Option.map_some, Option.bind_some, ht, Option.bind_some, hfind], heq⟩

lemma flfindSliceSpan_eq (h : s.Chain n xss) (hfuel : xss.length < fuel) (k i e : ℤ) :
    flfindSliceSpan s fuel n k i e = lfindSliceSpan xss k i e := by
  induction h generalizing fuel k with
  | nil =>
    obtain ⟨fuel, rfl⟩ := Nat.exists_eq_add_one.mpr hfuel
    rfl
  | @cons v t xs n xss hh ht hn ih =>
    obtain ⟨fuel, rfl⟩ := Nat.exists_eq_add_one.mpr (Nat.zero_lt_of_lt hfuel)
    simp only [flfindSliceSpan, lfindSliceSpan, hh, ht, Option.bind_some, ih (Nat.lt_of_succ_lt_succ hfuel)]

lemma views (h : s.Chain n xss) (hfuel : xss.length < fuel) : (storedRopes s fuel).Views n (flat xss) where
  size := (h.flfoldl_eq _ hfuel 0).trans (ropes_views xss).size
  element i x hx := by
    obtain ⟨found, hfind, heq⟩ := h.flfindS_eq (fun (j : ℤ) vs => j - vs.length) (fun j vs => j < vs.length) hfuel i
    obtain ⟨j, vs, hj, hmem⟩ := lfindS_spec hx
    rw [hmem, Option.bind_eq_some_iff] at heq
    obtain ⟨⟨j', v⟩, rfl, hv⟩ := heq
    obtain ⟨xs, hxs, hpair⟩ := Option.map_eq_some_iff.mp hv
    obtain ⟨rfl, rfl⟩ := Prod.mk.inj hpair
    change (flfindS _ _ _ _ _ _).bind _ = _
    rw [hfind]
    exact (congrArg (Option.bind · _) hxs).trans (index_from_end hj)
  elements i e hi he := by
    change (flfindSliceSpan s fuel n 0 i e).bind _ = _
    rw [h.flfindSliceSpan_eq hfuel]
    exact (ropes_views xss).elements i e hi he

/-- A reference to a rope is accessed as the rope is. -/
lemma loaded_views {r : ρ} (hr : s.node r = some n) (h : s.Chain n xss) (hfuel : xss.length < fuel) :
    (loadedRopes s fuel).Views r (flat xss) where
  size := (congrArg (Option.bind · _) hr).trans (h.views hfuel).size
  element i x hx := (congrArg (Option.bind · _) hr).trans ((h.views hfuel).element i x hx)
  elements i e hi he := (congrArg (Option.bind · _) hr).trans ((h.views hfuel).elements i e hi he)

end Store.Chain

/-- The array is read as `flat`, and each of its slices is that of `flat`. -/
structure ArrayClass.SlicesAs (A : ArrayClass σ α) (xs : σ) (flat : List α) : Prop where
  size : A.size xs = some (flat.length : ℤ)
  element (i : ℕ) (x : α) (h : flat[i]? = some x) : A.element xs i = some x
  slice (i j : ℤ) : ∃ ys, slice A xs i j = some ys ∧ Boot.slice arrays flat i j = some ys

lemma ArrayClass.Views.slicesAs {A : ArrayClass σ α} {xs : σ} {flat : List α} (h : A.Views xs flat) :
    A.SlicesAs xs flat where
  size := h.size
  element := h.element
  slice i j := ⟨_, h.slice_eq i j, (arrays_views flat).slice_eq i j⟩

/-- A rope is accessed and sliced as its flat array, in memory and stored as a chain of batches. -/
theorem ropes_slice (xss : List (List α)) :
    ropes.SlicesAs xss (flat xss) ∧
      ∀ (s : Store ρ α) (n : Node ρ) (fuel : ℕ), s.Chain n xss → xss.length < fuel →
        (storedRopes s fuel).SlicesAs n (flat xss) ∧
        ∀ r, s.node r = some n → (loadedRopes s fuel).SlicesAs r (flat xss) :=
  ⟨(ropes_views xss).slicesAs, fun _ _ _ hchain hfuel =>
    ⟨(hchain.views hfuel).slicesAs, fun _ hr => (hchain.loaded_views hr hfuel).slicesAs⟩⟩

/-- Two batches, of which the older one is stored after the newer one. -/
def twoBatches : Store ℕ ℕ where
  array r := if r = 1 then some [2, 3] else if r = 3 then some [1] else none
  node r :=
    if r = 0 then some (some (1, 2)) else if r = 2 then some (some (3, 4)) else if r = 4 then some none else none

theorem ropes_slice_twoBatches : (loadedRopes twoBatches 3).SlicesAs 0 [3, 2, 1] :=
  ((ropes_slice [[2, 3], [1]]).2 twoBatches (some (1, 2)) 3 (.cons rfl rfl (.cons rfl rfl .nil)) (by decide)).2 0 rfl

end Hobbes.Boot
