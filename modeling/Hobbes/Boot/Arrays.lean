import Hobbes.Core.Slots
import Mathlib.Algebra.GroupWithZero.Nat
import Mathlib.Data.Int.Notation

/-!
# Arrays of the language

A `long` is an integer here, and a natural number where it is never negative. An array access out of bounds, and a
recursion that does not end, have no result.
-/

namespace Hobbes.Boot

open Core

variable {α β γ : Type*}

/-- `xs[i]`. -/
def index (xs : List α) (i : ℤ) : Option α := if 0 ≤ i then xs[i.toNat]? else none

lemma index_natCast (xs : List α) (i : ℕ) : index xs i = xs[i]? := by
  rw [index, if_pos (Int.natCast_nonneg i), Int.toNat_natCast]

/-! ### Ranges of numbers -/

def rangeInto (lo hi : ℤ) (r : Slots ℤ) (i : ℕ) : Option (Slots ℤ) :=
  if lo > hi then some r else (r.write i lo).bind fun r => rangeInto (lo + 1) hi r (i + 1)
termination_by (hi + 1 - lo).toNat

def range (lo hi : ℤ) : Option (List ℤ) :=
  let n := hi - lo + 1
  if n > 0 then (rangeInto lo hi (Slots.alloc n.toNat) 0).bind Slots.elems else some []

lemma rangeInto_filledTo (lo hi : ℤ) (xs : List ℤ) {k i : ℕ} (hk : (hi - lo + 1).toNat = k) (hi' : i = xs.length) :
    rangeInto lo hi (Slots.filledTo xs k) i =
      some (Slots.filledTo (xs ++ (List.range k).map fun n : ℕ => lo + n) 0) := by
  subst hi'
  induction k generalizing lo xs with
  | zero =>
    rw [rangeInto, if_pos (by omega), List.range_zero, List.map_nil, List.append_nil]
  | succ k ih =>
    have hstep := ih (lo + 1) (xs ++ [lo]) (by omega)
    rw [List.length_append, List.length_singleton] at hstep
    rw [rangeInto, if_neg (by omega), Slots.write_filledTo, Option.bind_some, hstep, List.append_assoc,
      List.singleton_append, List.range_succ_eq_map, List.map_cons, List.map_map]
    congr 4
    · simp
    · refine List.map_congr_left fun n _ => ?_
      rw [Function.comp_apply]
      omega

lemma range_eq (lo hi : ℤ) : range lo hi = some ((List.range (hi - lo + 1).toNat).map fun n : ℕ => lo + n) := by
  simp only [range]
  split_ifs with h
  · have hinto := @rangeInto_filledTo lo hi [] _ 0 rfl rfl
    rw [Slots.alloc_eq, hinto, Option.bind_some, Slots.elems_filledTo, List.nil_append]
  · rw [Int.toNat_of_nonpos (by omega)]
    rfl

/-- All positions of an array. -/
lemma range_length (xs : List α) :
    range 0 ((xs.length : ℤ) - 1) = some ((List.range xs.length).map fun n : ℕ => (n : ℤ)) := by
  have hlen : ((xs.length : ℤ) - 1 - 0 + 1).toNat = xs.length := by omega
  rw [range_eq, hlen]
  exact congrArg some (List.map_congr_left fun n _ => Int.zero_add n)

/-! ### Selections -/

def selectStep (xs : List α) (idxs : List ℤ) (r : Slots α) (i : ℕ) : Option (Slots α) :=
  Slots.fill (fun i => idxs[i]?.bind (index xs)) r i i idxs.length

def select (xs : List α) (idxs : List ℤ) : Option (List α) :=
  (selectStep xs idxs (Slots.alloc idxs.length) 0).bind Slots.elems

/-- An array is filled with the results of a loop if all of them exist. -/
lemma fill_of_map {f : α → Option β} {xs : List α} {ys : List β} (h : xs.map f = ys.map some) :
    (Slots.fill (fun i => xs[i]?.bind f) (Slots.alloc xs.length) 0 0 xs.length).bind Slots.elems = some ys := by
  have hlen : xs.length = ys.length := by
    have := congrArg List.length h
    rwa [List.length_map, List.length_map] at this
  rw [hlen]
  refine Slots.fill_alloc (Nat.zero_add _).symm fun n y hy => ?_
  have hn := congrArg (fun l => l[n]?) h
  simp only [List.getElem?_map, hy, Option.map_some] at hn
  obtain ⟨x, hx, hfx⟩ := Option.map_eq_some_iff.mp hn
  rw [Nat.zero_add, hx]
  exact hfx

/-- An array is selected if all of its positions are in bounds. -/
lemma select_eq {xs : List α} {idxs : List ℤ} {ys : List α} (h : idxs.map (index xs) = ys.map some) :
    select xs idxs = some ys :=
  fill_of_map h

/-! ### Parts of an array -/

def selectRStep (xs : List α) (r : Slots α) (k i e : ℕ) : Option (Slots α) := Slots.fill (fun i => xs[i]?) r k i e

def selectRange (xs : List α) (lo hi : ℤ) : Option (List α) :=
  let nhi := min (xs.length : ℤ) hi
  let nlo := min (max 0 lo) nhi
  let n := max (nhi - nlo) 0
  (if n > 0 then selectRStep xs (Slots.alloc n.toNat) 0 nlo.toNat nhi.toNat else some (Slots.alloc n.toNat)).bind
    Slots.elems

lemma selectRange_eq (xs : List α) (lo hi : ℕ) : selectRange xs lo hi = some ((xs.take hi).drop lo) := by
  have hlen : ((xs.take hi).drop lo).length = min xs.length hi - lo := by
    rw [List.length_drop, List.length_take, min_comm]
  simp only [selectRange, selectRStep]
  split_ifs with h
  · have hnum : (max (min (xs.length : ℤ) hi - min (max 0 (lo : ℤ)) (min (xs.length : ℤ) hi)) 0).toNat =
        ((xs.take hi).drop lo).length := by
      rw [hlen]
      omega
    have hlo : (min (max 0 (lo : ℤ)) (min (xs.length : ℤ) hi)).toNat = lo := by omega
    have hhi : (min (xs.length : ℤ) hi).toNat = lo + ((xs.take hi).drop lo).length := by
      rw [hlen]
      omega
    rw [hnum, hlo, hhi]
    refine Slots.fill_alloc rfl fun n y hy => ?_
    rw [List.getElem?_drop, List.getElem?_take] at hy
    split_ifs at hy
    exact hy
  · have hnil : (xs.take hi).drop lo = [] := by
      rw [← List.length_eq_zero_iff, hlen]
      omega
    have hnum : (max (min (xs.length : ℤ) hi - min (max 0 (lo : ℤ)) (min (xs.length : ℤ) hi)) 0).toNat = 0 := by
      omega
    rw [hnum, hnil]
    rfl

/-! ### Copies -/

def unsafeSetLength (xs : Slots α) (n : ℕ) : Option (Slots α) := if n ≤ xs.length then some (xs.take n) else none

lemma unsafeSetLength_filledTo (xs : List α) (k : ℕ) :
    (unsafeSetLength (Slots.filledTo xs k) xs.length).bind Slots.elems = some xs := by
  rw [unsafeSetLength, if_pos (by rw [Slots.length_filledTo]; omega), Option.bind_some, Slots.filledTo,
    List.take_left' (by rw [List.length_map]), Slots.elems_map]

def copyRange (dst : Slots α) (i : ℕ) (src : List α) (srcI srcE : ℕ) : Option (Slots α) :=
  if srcI ≥ srcE then some dst
  else src[srcI]?.bind fun x => (dst.write i x).bind fun dst => copyRange dst (i + 1) src (srcI + 1) srcE
termination_by srcE - srcI

def concatInto (xss : List (List α)) (i : ℕ) (xs : Slots α) (j : ℕ) : Option (Slots α) :=
  if i = xss.length then some xs
  else
    match _h : xss[i]? with
    | none => none
    | some xsi =>
      let n := xsi.length
      (copyRange xs j xsi 0 n).bind fun xs => concatInto xss (i + 1) xs (j + n)
termination_by xss.length - i
decreasing_by
  have := (List.getElem?_eq_some_iff.mp _h).1
  omega

def concat (xs : List (List α)) : Option (List α) :=
  (concatInto xs 0 (Slots.alloc (xs.map List.length).sum) 0).bind Slots.elems

/-- The rest of the source is added to what has been written. -/
lemma copyRange_filledTo {src : List α} {srcI i : ℕ} (xs : List α) (k : ℕ) (h : srcI ≤ src.length)
    (hi : i = xs.length) :
    copyRange (Slots.filledTo xs ((src.drop srcI).length + k)) i src srcI src.length =
      some (Slots.filledTo (xs ++ src.drop srcI) k) := by
  subst hi
  rw [copyRange]
  rcases Nat.eq_or_lt_of_le h with rfl | hlt
  · rw [if_pos (le_refl _), List.drop_length, List.length_nil, Nat.zero_add, List.append_nil]
  · have hrest := List.drop_eq_getElem_cons hlt
    have hstep := @copyRange_filledTo src (srcI + 1) (xs.length + 1) (xs ++ [src[srcI]]) k hlt
      (by rw [List.length_append, List.length_singleton])
    rw [List.append_assoc, List.singleton_append] at hstep
    rw [if_neg (not_le.mpr hlt), List.getElem?_eq_getElem hlt, Option.bind_some, hrest, List.length_cons,
      Nat.add_right_comm, Slots.write_filledTo, Option.bind_some]
    exact hstep
termination_by src.length - srcI

lemma copyRange_all (xs src : List α) (k : ℕ) :
    copyRange (Slots.filledTo xs (src.length + k)) xs.length src 0 src.length =
      some (Slots.filledTo (xs ++ src) k) := by
  have hall := @copyRange_filledTo _ src 0 _ xs k (Nat.zero_le _) rfl
  rwa [List.drop_zero] at hall

lemma concatInto_filledTo {xss : List (List α)} {i : ℕ} (xs : List α) (h : i ≤ xss.length) :
    concatInto xss i (Slots.filledTo xs ((xss.drop i).map List.length).sum) xs.length =
      some (Slots.filledTo (xs ++ (xss.drop i).flatten) 0) := by
  rw [concatInto]
  rcases Nat.eq_or_lt_of_le h with rfl | hlt
  · rw [if_pos rfl, List.drop_length, List.flatten_nil, List.append_nil]
    rfl
  · have hget := List.getElem?_eq_getElem hlt
    have hstep := concatInto_filledTo (xs ++ xss[i]) hlt
    rw [List.length_append] at hstep
    rw [if_neg hlt.ne, List.drop_eq_getElem_cons hlt, List.map_cons, List.sum_cons, List.flatten_cons]
    split
    · next hnone => exact absurd (hget.symm.trans hnone) (by simp)
    · next xsi hsome =>
      obtain rfl : xss[i] = xsi := Option.some.inj (hget.symm.trans hsome)
      simp only [copyRange_all, Option.bind_some, hstep, List.append_assoc]
termination_by xss.length - i

lemma concat_eq (xss : List (List α)) : concat xss = some xss.flatten := by
  have hall := @concatInto_filledTo _ xss 0 [] (Nat.zero_le _)
  rw [List.drop_zero] at hall
  rw [concat, Slots.alloc_eq]
  exact (congrArg (Option.bind · Slots.elems) hall).trans (Slots.elems_filledTo _)

/-! ### Comprehensions -/

def fmapArrStep (f : α → Option β) (xs : List α) (i : ℕ) (rs : Slots β) : Option (Slots β) :=
  Slots.fill (fun i => xs[i]?.bind f) rs i i xs.length

/-- `[f(x) | x <- xs]`. -/
def fmap (f : α → Option β) (xs : List α) : Option (List β) :=
  (fmapArrStep f xs 0 (Slots.alloc xs.length)).bind Slots.elems

lemma fmap_eq {f : α → Option β} {xs : List α} {ys : List β} (h : xs.map f = ys.map some) : fmap f xs = some ys :=
  fill_of_map h

/-- A comprehension of a function that always has a result. -/
lemma fmap_some (f : α → β) (xs : List α) : fmap (fun x => some (f x)) xs = some (xs.map f) :=
  fmap_eq (List.map_map ..).symm

def productWith (f : α → β → γ) (xs : List α) (ys : List β) : Option (List γ) :=
  (fmap (fun x => fmap (fun y => some (f x y)) ys) xs).bind concat

lemma productWith_eq (f : α → β → γ) (xs : List α) (ys : List β) :
    productWith f xs ys = some (xs.flatMap fun x => ys.map (f x)) := by
  simp only [productWith, fmap_some, Option.bind_some, concat_eq]
  rfl

/-! ### Lists of the language -/

def toArrayStep (axs : Slots α) (i : ℕ) : List α → Option (Slots α)
  | [] => some axs
  | x :: xs => (axs.write i x).bind fun axs => toArrayStep axs (i + 1) xs

def toArray (xs : List α) : Option (List α) := (toArrayStep (Slots.alloc xs.length) 0 xs).bind Slots.elems

lemma toArrayStep_filledTo (ys xs : List α) :
    toArrayStep (Slots.filledTo ys xs.length) ys.length xs = some (Slots.filledTo (ys ++ xs) 0) := by
  induction xs generalizing ys with
  | nil => rw [toArrayStep, List.append_nil, List.length_nil]
  | cons x xs ih =>
    have hstep := ih (ys ++ [x])
    rw [List.length_append, List.length_singleton, List.append_assoc, List.singleton_append] at hstep
    rw [toArrayStep, List.length_cons, Slots.write_filledTo, Option.bind_some, hstep]

lemma toArray_eq (xs : List α) : toArray xs = some xs := by
  rw [toArray, Slots.alloc_eq]
  exact (congrArg (Option.bind · Slots.elems) (toArrayStep_filledTo [] xs)).trans (Slots.elems_filledTo _)

end Hobbes.Boot
