import Hobbes.Boot.Arrays
import Mathlib.Data.List.Forall2
import Mathlib.Order.Defs.LinearOrder

/-!
# Merging sorted arrays
-/

namespace Hobbes.Boot

open Core

variable {α β κ : Type*} [LinearOrder κ]

def mergeWithStep (p : α → κ) (xs : List α) (xi : ℕ) (ys : List α) (yi : ℕ) (r : Slots α) (ri : ℕ) :
    Option (List α) :=
  if xi = xs.length ∧ yi = ys.length then (unsafeSetLength r ri).bind Slots.elems
  else if yi = ys.length then
    (copyRange r ri xs xi xs.length).bind fun r => (unsafeSetLength r (ri + (xs.length - xi))).bind Slots.elems
  else if xi = xs.length then
    (copyRange r ri ys yi ys.length).bind fun r => (unsafeSetLength r (ri + (ys.length - yi))).bind Slots.elems
  else
    match _h : xs[xi]?, _h' : ys[yi]? with
    | some x, some y =>
      if p x < p y then (r.write ri x).bind fun r => mergeWithStep p xs (xi + 1) ys yi r (ri + 1)
      else if p y < p x then (r.write ri y).bind fun r => mergeWithStep p xs xi ys (yi + 1) r (ri + 1)
      else (r.write ri y).bind fun r => mergeWithStep p xs (xi + 1) ys (yi + 1) r (ri + 1)
    | _, _ => none
termination_by (xs.length - xi) + (ys.length - yi)
decreasing_by
  all_goals
    have hx := (List.getElem?_eq_some_iff.mp _h).1
    have hy := (List.getElem?_eq_some_iff.mp _h').1
    omega

def mergeWith (p : α → κ) (xs ys : List α) : Option (List α) :=
  mergeWithStep p xs 0 ys 0 (Slots.alloc (xs.length + ys.length)) 0

/-- `la` and `lb` are the last elements that have been merged. The two types of keys are those of one order. -/
def cmergeWithStep (ak : α → κ) (as : List α) (ai : ℕ) (la : Option α) (bk : β → κ) (bs : List β) (bi : ℕ)
    (lb : Option β) (rs : Slots (Option α × Option β)) (ri : ℕ) : Option (List (Option α × Option β)) :=
  if ai = as.length ∧ bi = bs.length then (unsafeSetLength rs ri).bind Slots.elems
  else if bi = bs.length then
    match _h : as[ai]? with
    | none => none
    | some a =>
      (rs.write ri (some a, lb)).bind fun rs => cmergeWithStep ak as (ai + 1) la bk bs bi lb rs (ri + 1)
  else if ai = as.length then
    match _h : bs[bi]? with
    | none => none
    | some b =>
      (rs.write ri (la, some b)).bind fun rs => cmergeWithStep ak as ai la bk bs (bi + 1) lb rs (ri + 1)
  else
    match _h : as[ai]?, _h' : bs[bi]? with
    | some a, some b =>
      if ak a < bk b then
        (rs.write ri (some a, lb)).bind fun rs => cmergeWithStep ak as (ai + 1) (some a) bk bs bi lb rs (ri + 1)
      else if ak a > bk b then
        (rs.write ri (la, some b)).bind fun rs => cmergeWithStep ak as ai la bk bs (bi + 1) (some b) rs (ri + 1)
      else
        (rs.write ri (some a, some b)).bind fun rs =>
          cmergeWithStep ak as (ai + 1) (some a) bk bs (bi + 1) (some b) rs (ri + 1)
    | _, _ => none
termination_by (as.length - ai) + (bs.length - bi)
decreasing_by
  · have ha := (List.getElem?_eq_some_iff.mp _h).1
    omega
  · have hb := (List.getElem?_eq_some_iff.mp _h).1
    omega
  all_goals
    have ha := (List.getElem?_eq_some_iff.mp _h).1
    have hb := (List.getElem?_eq_some_iff.mp _h').1
    omega

def cmergeWith (ak : α → κ) (as : List α) (bk : β → κ) (bs : List β) : Option (List (Option α × Option β)) :=
  cmergeWithStep ak as 0 none bk bs 0 none (Slots.alloc (as.length + bs.length)) 0

/-! ### The merge of two lists -/

/-- Equal keys are taken from the right. -/
def mergedWith (p : α → κ) : List α → List α → List α
  | [], ys => ys
  | xs, [] => xs
  | x :: xs, y :: ys =>
    if p x < p y then x :: mergedWith p xs (y :: ys)
    else if p y < p x then y :: mergedWith p (x :: xs) ys
    else y :: mergedWith p xs ys
termination_by xs ys => xs.length + ys.length

lemma mergedWith_nil_left (p : α → κ) (ys : List α) : mergedWith p [] ys = ys := by
  rw [mergedWith]

lemma mergedWith_nil_right (p : α → κ) (xs : List α) : mergedWith p xs [] = xs := by
  cases xs <;> simp [mergedWith]

lemma mergedWith_cons_cons (p : α → κ) (x : α) (xs : List α) (y : α) (ys : List α) :
    mergedWith p (x :: xs) (y :: ys) =
      if p x < p y then x :: mergedWith p xs (y :: ys)
      else if p y < p x then y :: mergedWith p (x :: xs) ys
      else y :: mergedWith p xs ys := by
  conv_lhs => unfold mergedWith

/-- The rest of an array is copied, and the result has no more elements than have been written. -/
lemma copyRest_eq (ws : List α) {src : List α} {i k : ℕ} (hi : i ≤ src.length) (hk : src.length - i ≤ k) :
    ((copyRange (Slots.filledTo ws k) ws.length src i src.length).bind fun r =>
      (unsafeSetLength r (ws.length + (src.length - i))).bind Slots.elems) = some (ws ++ src.drop i) := by
  obtain ⟨k', rfl⟩ := Nat.exists_eq_add_of_le hk
  have hcopy := copyRange_filledTo ws k' hi rfl
  have hlen : ws.length + (src.length - i) = (ws ++ src.drop i).length := by
    rw [List.length_append, List.length_drop]
  rw [List.length_drop] at hcopy
  rw [hcopy, Option.bind_some, hlen, unsafeSetLength_filledTo]

lemma mergeWithStep_eq {p : α → κ} {xs ys : List α} {xi yi : ℕ} (hx : xi ≤ xs.length) (hy : yi ≤ ys.length)
    (ws : List α) {k : ℕ} (hk : (xs.length - xi) + (ys.length - yi) ≤ k) :
    mergeWithStep p xs xi ys yi (Slots.filledTo ws k) ws.length =
      some (ws ++ mergedWith p (xs.drop xi) (ys.drop yi)) := by
  rw [mergeWithStep]
  rcases Nat.eq_or_lt_of_le hy with rfl | hylt
  · rw [List.drop_length, mergedWith_nil_right]
    rcases Nat.eq_or_lt_of_le hx with rfl | hxlt
    · rw [if_pos ⟨rfl, rfl⟩, unsafeSetLength_filledTo, List.drop_length, List.append_nil]
    · rw [if_neg fun h => hxlt.ne h.1, if_pos rfl, copyRest_eq ws hx (by omega)]
  rw [if_neg fun h => hylt.ne h.2, if_neg hylt.ne]
  rcases Nat.eq_or_lt_of_le hx with rfl | hxlt
  · rw [if_pos rfl, copyRest_eq ws hy (by omega), List.drop_length, mergedWith_nil_left]
  obtain ⟨k, rfl⟩ : ∃ k', k = k' + 1 := ⟨k - 1, by omega⟩
  have hgx := List.getElem?_eq_getElem hxlt
  have hgy := List.getElem?_eq_getElem hylt
  -- the merge goes on behind the element that is written
  have hstep (w : α) {xi' yi' : ℕ} (hx' : xi' ≤ xs.length) (hy' : yi' ≤ ys.length)
      (hlt : (xs.length - xi') + (ys.length - yi') < (xs.length - xi) + (ys.length - yi)) :
      ((Slots.filledTo ws (k + 1)).write ws.length w).bind (fun r => mergeWithStep p xs xi' ys yi' r (ws.length + 1)) =
        some (ws ++ w :: mergedWith p (xs.drop xi') (ys.drop yi')) := by
    have ih := mergeWithStep_eq (p := p) hx' hy' (ws ++ [w]) (show _ ≤ k by omega)
    rw [List.length_append, List.length_singleton, List.append_assoc, List.singleton_append] at ih
    rw [Slots.write_filledTo, Option.bind_some, ih]
  rw [if_neg hxlt.ne, List.drop_eq_getElem_cons hxlt, List.drop_eq_getElem_cons hylt, mergedWith_cons_cons]
  split
  · next x y hx' hy' =>
    obtain rfl : xs[xi] = x := Option.some.inj (hgx.symm.trans hx')
    obtain rfl : ys[yi] = y := Option.some.inj (hgy.symm.trans hy')
    split_ifs
    · rw [hstep _ hxlt hy (by omega), List.drop_eq_getElem_cons hylt]
    · rw [hstep _ hx hylt (by omega), List.drop_eq_getElem_cons hxlt]
    · rw [hstep _ hxlt hylt (by omega)]
  · next hno => exact absurd hgy (hno _ _ hgx)
termination_by (xs.length - xi) + (ys.length - yi)

/-- Strictly ascending keys. -/
def AscendingBy (p : α → κ) (xs : List α) : Prop := xs.Pairwise fun a b => p a < p b

lemma AscendingBy.tail {p : α → κ} {x : α} {xs : List α} (h : AscendingBy p (x :: xs)) : AscendingBy p xs :=
  (List.pairwise_cons.mp h).2

lemma AscendingBy.lt {p : α → κ} {x : α} {xs : List α} (h : AscendingBy p (x :: xs)) : ∀ y ∈ xs, p x < p y :=
  (List.pairwise_cons.mp h).1

lemma mem_mergedWith {p : α → κ} {xs ys : List α} (hx : AscendingBy p xs) (hy : AscendingBy p ys) (z : α) :
    z ∈ mergedWith p xs ys ↔ z ∈ ys ∨ z ∈ xs ∧ ∀ y ∈ ys, p y ≠ p z := by
  induction xs, ys using mergedWith.induct p with
  | case1 ys => simp [mergedWith_nil_left]
  | case2 xs _ => simp [mergedWith_nil_right]
  | case3 x xs y ys hlt ih =>
    rw [mergedWith_cons_cons, if_pos hlt, List.mem_cons, ih hx.tail hy, List.mem_cons (b := x)]
    have hno : ∀ w ∈ y :: ys, p w ≠ p x := fun w hw => by
      rcases List.mem_cons.mp hw with rfl | hw
      · exact hlt.ne'
      · exact (hlt.trans (hy.lt w hw)).ne'
    constructor
    · rintro (rfl | h | ⟨h, h'⟩)
      · exact .inr ⟨.inl rfl, hno⟩
      · exact .inl h
      · exact .inr ⟨.inr h, h'⟩
    · rintro (h | ⟨rfl | h, h'⟩)
      · exact .inr (.inl h)
      · exact .inl rfl
      · exact .inr (.inr ⟨h, h'⟩)
  | case4 x xs y ys hlt hgt ih =>
    rw [mergedWith_cons_cons, if_neg hlt, if_pos hgt, List.mem_cons, ih hx hy.tail, List.mem_cons (b := y),
      List.forall_mem_cons, or_assoc]
    have hno : z ∈ x :: xs → p y ≠ p z := fun hz => by
      rcases List.mem_cons.mp hz with rfl | hz
      · exact hgt.ne
      · exact (hgt.trans (hx.lt z hz)).ne
    exact or_congr_right (or_congr_right (and_congr_right fun hz => (and_iff_right (hno hz)).symm))
  | case5 x xs y ys hlt hgt ih =>
    have heq : p x = p y := le_antisymm (not_lt.mp hgt) (not_lt.mp hlt)
    rw [mergedWith_cons_cons, if_neg hlt, if_neg hgt, List.mem_cons, ih hx.tail hy.tail, List.mem_cons (b := y),
      List.mem_cons (b := x), List.forall_mem_cons, or_assoc]
    have hno : z ∈ xs → p y ≠ p z := fun hz => heq ▸ (hx.lt z hz).ne
    refine or_congr_right (or_congr_right ⟨fun ⟨hz, h⟩ => ⟨.inr hz, hno hz, h⟩, ?_⟩)
    rintro ⟨rfl | hz, hne, h⟩
    · exact absurd heq.symm hne
    · exact ⟨hz, h⟩

lemma ascending_mergedWith {p : α → κ} {xs ys : List α} (hx : AscendingBy p xs) (hy : AscendingBy p ys) :
    AscendingBy p (mergedWith p xs ys) := by
  induction xs, ys using mergedWith.induct p with
  | case1 ys => rwa [mergedWith_nil_left]
  | case2 xs _ => rwa [mergedWith_nil_right]
  | case3 x xs y ys hlt ih =>
    rw [mergedWith_cons_cons, if_pos hlt]
    refine List.pairwise_cons.mpr ⟨fun z hz => ?_, ih hx.tail hy⟩
    rcases (mem_mergedWith hx.tail hy z).mp hz with hz | ⟨hz, _⟩
    · rcases List.mem_cons.mp hz with rfl | hz
      · exact hlt
      · exact hlt.trans (hy.lt z hz)
    · exact hx.lt z hz
  | case4 x xs y ys hlt hgt ih =>
    rw [mergedWith_cons_cons, if_neg hlt, if_pos hgt]
    refine List.pairwise_cons.mpr ⟨fun z hz => ?_, ih hx hy.tail⟩
    rcases (mem_mergedWith hx hy.tail z).mp hz with hz | ⟨hz, _⟩
    · exact hy.lt z hz
    · rcases List.mem_cons.mp hz with rfl | hz
      · exact hgt
      · exact hgt.trans (hx.lt z hz)
  | case5 x xs y ys hlt hgt ih =>
    have heq : p x = p y := le_antisymm (not_lt.mp hgt) (not_lt.mp hlt)
    rw [mergedWith_cons_cons, if_neg hlt, if_neg hgt]
    refine List.pairwise_cons.mpr ⟨fun z hz => ?_, ih hx.tail hy.tail⟩
    rcases (mem_mergedWith hx.tail hy.tail z).mp hz with hz | ⟨hz, _⟩
    · exact hy.lt z hz
    · exact heq ▸ hx.lt z hz

lemma mergeWith_eq (p : α → κ) (xs ys : List α) : mergeWith p xs ys = some (mergedWith p xs ys) :=
  mergeWithStep_eq (Nat.zero_le _) (Nat.zero_le _) [] le_rfl

/-! ### The merge that carries the last elements along -/

def cmerged (ak : α → κ) (bk : β → κ) : List α → Option α → List β → Option β → List (Option α × Option β)
  | as, _, [], lb => as.map fun a => (some a, lb)
  | [], la, bs, _ => bs.map fun b => (la, some b)
  | a :: as, la, b :: bs, lb =>
    if ak a < bk b then (some a, lb) :: cmerged ak bk as (some a) (b :: bs) lb
    else if bk b < ak a then (la, some b) :: cmerged ak bk (a :: as) la bs (some b)
    else (some a, some b) :: cmerged ak bk as (some a) bs (some b)
termination_by as _ bs _ => as.length + bs.length

lemma cmerged_nil_right (ak : α → κ) (bk : β → κ) (as : List α) (la : Option α) (lb : Option β) :
    cmerged ak bk as la [] lb = as.map fun a => (some a, lb) := by
  cases as <;> simp [cmerged]

lemma cmerged_nil_left (ak : α → κ) (bk : β → κ) (la : Option α) (bs : List β) (lb : Option β) :
    cmerged ak bk [] la bs lb = bs.map fun b => (la, some b) := by
  cases bs <;> simp [cmerged]

lemma cmerged_cons_cons (ak : α → κ) (bk : β → κ) (a : α) (as : List α) (la : Option α) (b : β) (bs : List β)
    (lb : Option β) : cmerged ak bk (a :: as) la (b :: bs) lb =
      if ak a < bk b then (some a, lb) :: cmerged ak bk as (some a) (b :: bs) lb
      else if bk b < ak a then (la, some b) :: cmerged ak bk (a :: as) la bs (some b)
      else (some a, some b) :: cmerged ak bk as (some a) bs (some b) := by
  conv_lhs => unfold cmerged

lemma cmergeWithStep_eq {ak : α → κ} {as : List α} {ai : ℕ} {la : Option α} {bk : β → κ} {bs : List β} {bi : ℕ}
    {lb : Option β} (ha : ai ≤ as.length) (hb : bi ≤ bs.length) (ws : List (Option α × Option β)) {k : ℕ}
    (hk : (as.length - ai) + (bs.length - bi) ≤ k) :
    cmergeWithStep ak as ai la bk bs bi lb (Slots.filledTo ws k) ws.length =
      some (ws ++ cmerged ak bk (as.drop ai) la (bs.drop bi) lb) := by
  -- the merge goes on behind the entry that is written
  have hstep (w : Option α × Option β) {ai' bi' : ℕ} {la' : Option α} {lb' : Option β} (ha' : ai' ≤ as.length)
      (hb' : bi' ≤ bs.length) (hlt : (as.length - ai') + (bs.length - bi') < (as.length - ai) + (bs.length - bi)) :
      ((Slots.filledTo ws k).write ws.length w).bind
          (fun r => cmergeWithStep ak as ai' la' bk bs bi' lb' r (ws.length + 1)) =
        some (ws ++ w :: cmerged ak bk (as.drop ai') la' (bs.drop bi') lb') := by
    obtain ⟨k, rfl⟩ : ∃ k', k = k' + 1 := ⟨k - 1, by omega⟩
    have ih := @cmergeWithStep_eq ak as ai' la' bk bs bi' lb' ha' hb' (ws ++ [w]) k (by omega)
    rw [List.length_append, List.length_singleton, List.append_assoc, List.singleton_append] at ih
    rw [Slots.write_filledTo, Option.bind_some, ih]
  rw [cmergeWithStep]
  rcases Nat.eq_or_lt_of_le hb with rfl | hblt
  · rw [List.drop_length, cmerged_nil_right]
    rcases Nat.eq_or_lt_of_le ha with rfl | halt
    · rw [if_pos ⟨rfl, rfl⟩, unsafeSetLength_filledTo, List.drop_length, List.map_nil, List.append_nil]
    · have hga := List.getElem?_eq_getElem halt
      rw [if_neg fun h => halt.ne h.1, if_pos rfl]
      split
      · next hnone => exact absurd (hga.symm.trans hnone) (by simp)
      · next a ha' =>
        obtain rfl : as[ai] = a := Option.some.inj (hga.symm.trans ha')
        rw [hstep _ halt le_rfl (by omega), List.drop_length, cmerged_nil_right, List.drop_eq_getElem_cons halt,
          List.map_cons]
  rw [if_neg fun h => hblt.ne h.2, if_neg hblt.ne]
  have hgb := List.getElem?_eq_getElem hblt
  rcases Nat.eq_or_lt_of_le ha with rfl | halt
  · rw [if_pos rfl, List.drop_length, cmerged_nil_left]
    split
    · next hnone => exact absurd (hgb.symm.trans hnone) (by simp)
    · next b hb' =>
      obtain rfl : bs[bi] = b := Option.some.inj (hgb.symm.trans hb')
      rw [hstep _ le_rfl hblt (by omega), List.drop_length, cmerged_nil_left, List.drop_eq_getElem_cons hblt,
        List.map_cons]
  have hga := List.getElem?_eq_getElem halt
  rw [if_neg halt.ne, List.drop_eq_getElem_cons halt, List.drop_eq_getElem_cons hblt, cmerged_cons_cons]
  split
  · next a b ha' hb' =>
    obtain rfl : as[ai] = a := Option.some.inj (hga.symm.trans ha')
    obtain rfl : bs[bi] = b := Option.some.inj (hgb.symm.trans hb')
    split_ifs
    · rw [hstep _ halt hb (by omega), List.drop_eq_getElem_cons hblt]
    · rw [hstep _ ha hblt (by omega), List.drop_eq_getElem_cons halt]
    · rw [hstep _ halt hblt (by omega)]
  · next hno => exact absurd hgb (hno _ _ hga)
termination_by (as.length - ai) + (bs.length - bi)

lemma cmergeWith_eq (ak : α → κ) (as : List α) (bk : β → κ) (bs : List β) :
    cmergeWith ak as bk bs = some (cmerged ak bk as none bs none) :=
  cmergeWithStep_eq (Nat.zero_le _) (Nat.zero_le _) [] le_rfl

/-- The element with the greatest key that is not above `k`, or nothing if there is none. -/
def IsLatest (key : α → κ) (as : List α) (k : κ) : Option α → Prop
  | none => ∀ a ∈ as, k < key a
  | some a => a ∈ as ∧ key a ≤ k ∧ ∀ a' ∈ as, key a' ≤ k → key a' ≤ key a

lemma isLatest_self {key : α → κ} {as : List α} {a : α} (h : a ∈ as) : IsLatest key as (key a) (some a) :=
  ⟨h, le_rfl, fun _ _ hle => hle⟩

/-- The last element that has been merged, where those that follow are above `k`. -/
lemma isLatest_last {key : α → κ} {la : Option α} {as : List α} {k : κ} (hla : ∀ x ∈ la, key x ≤ k)
    (has : ∀ a ∈ as, k < key a) : IsLatest key (la.toList ++ as) k la := by
  cases la with
  | none => exact has
  | some x =>
    refine ⟨List.mem_cons_self, hla x rfl, fun a ha hle => ?_⟩
    rcases List.mem_cons.mp ha with rfl | ha
    · exact le_rfl
    · exact absurd hle (not_le.mpr (has a ha))

/-- Behind an element those before it do not matter. -/
lemma IsLatest.append {key : α → κ} {la : Option α} {a : α} {as : List α} {k : κ} {o : Option α}
    (h : IsLatest key (a :: as) k o) (ha : key a ≤ k) (hla : ∀ x ∈ la, key x ≤ key a) :
    IsLatest key (la.toList ++ a :: as) k o := by
  cases o with
  | none => exact absurd (h a List.mem_cons_self) (not_lt.mpr ha)
  | some c =>
    refine ⟨List.mem_append_right _ h.1, h.2.1, fun a' ha' hle => ?_⟩
    rcases List.mem_append.mp ha' with ha' | ha'
    · exact (hla a' (Option.mem_toList.mp ha')).trans (h.2.2 a List.mem_cons_self ha)
    · exact h.2.2 a' ha' hle

/-- The entry of a key that comes behind the last elements. -/
structure Carries (ak : α → κ) (as : List α) (la : Option α) (bk : β → κ) (bs : List β) (lb : Option β) (k : κ)
    (r : Option α × Option β) : Prop where
  behind_left : ∀ x ∈ la, ak x ≤ k
  behind_right : ∀ y ∈ lb, bk y ≤ k
  left : IsLatest ak (la.toList ++ as) k r.1
  right : IsLatest bk (lb.toList ++ bs) k r.2

lemma Carries.step_left {ak : α → κ} {a : α} {as : List α} {la : Option α} {bk : β → κ} {bs : List β}
    {lb : Option β} {k : κ} {r : Option α × Option β} (h : Carries ak as (some a) bk bs lb k r)
    (hla : ∀ x ∈ la, ak x ≤ ak a) : Carries ak (a :: as) la bk bs lb k r where
  behind_left x hx := (hla x hx).trans (h.behind_left a rfl)
  behind_right := h.behind_right
  left := h.left.append (h.behind_left a rfl) hla
  right := h.right

lemma Carries.step_right {ak : α → κ} {as : List α} {la : Option α} {bk : β → κ} {b : β} {bs : List β}
    {lb : Option β} {k : κ} {r : Option α × Option β} (h : Carries ak as la bk bs (some b) k r)
    (hlb : ∀ y ∈ lb, bk y ≤ bk b) : Carries ak as la bk (b :: bs) lb k r where
  behind_left := h.behind_left
  behind_right y hy := (hlb y hy).trans (h.behind_right b rfl)
  left := h.left
  right := h.right.append (h.behind_right b rfl) hlb

/-- What is before all elements of both arrays is before all of their keys. -/
lemma lt_of_mem_both {ak : α → κ} {as : List α} {bk : β → κ} {bs : List β} {ks : List κ} {x : κ}
    (hmem : ∀ k, k ∈ ks ↔ k ∈ as.map ak ∨ k ∈ bs.map bk) (ha : ∀ a ∈ as, x < ak a) (hb : ∀ b ∈ bs, x < bk b) :
    ∀ k ∈ ks, x < k := fun k hk => by
  rcases (hmem k).mp hk with hk | hk
  · obtain ⟨a, hmem, rfl⟩ := List.mem_map.mp hk
    exact ha a hmem
  · obtain ⟨b, hmem, rfl⟩ := List.mem_map.mp hk
    exact hb b hmem

lemma cmerged_spec {ak : α → κ} {as : List α} {la : Option α} {bk : β → κ} {bs : List β} {lb : Option β}
    (ha : AscendingBy ak as) (hb : AscendingBy bk bs) (hla : ∀ x ∈ la, (∀ a ∈ as, ak x < ak a) ∧ ∀ b ∈ bs, ak x < bk b)
    (hlb : ∀ y ∈ lb, (∀ a ∈ as, bk y < ak a) ∧ ∀ b ∈ bs, bk y < bk b) :
    ∃ ks : List κ, ks.Pairwise (· < ·) ∧ (∀ k, k ∈ ks ↔ k ∈ as.map ak ∨ k ∈ bs.map bk) ∧
      List.Forall₂ (Carries ak as la bk bs lb) ks (cmerged ak bk as la bs lb) := by
  induction as, la, bs, lb using cmerged.induct ak bk with
  | case1 as la lb =>
    refine ⟨as.map ak, List.pairwise_map.mpr ha, by simp, ?_⟩
    rw [cmerged_nil_right, List.forall₂_map_left_iff, List.forall₂_map_right_iff, List.forall₂_same]
    exact fun a hmem => ⟨fun x hx => ((hla x hx).1 a hmem).le, fun y hy => ((hlb y hy).1 a hmem).le,
      isLatest_self (List.mem_append_right _ hmem),
      isLatest_last (fun y hy => ((hlb y hy).1 a hmem).le) fun b hb => absurd hb List.not_mem_nil⟩
  | case2 la bs lb _ =>
    refine ⟨bs.map bk, List.pairwise_map.mpr hb, by simp, ?_⟩
    rw [cmerged_nil_left, List.forall₂_map_left_iff, List.forall₂_map_right_iff, List.forall₂_same]
    exact fun b hmem => ⟨fun x hx => ((hla x hx).2 b hmem).le, fun y hy => ((hlb y hy).2 b hmem).le,
      isLatest_last (fun x hx => ((hla x hx).2 b hmem).le) fun a ha => absurd ha List.not_mem_nil,
      isLatest_self (List.mem_append_right _ hmem)⟩
  | case3 a as la b bs lb hlt ih =>
    have hbs : ∀ b' ∈ b :: bs, ak a < bk b' := List.forall_mem_cons.mpr ⟨hlt, fun b' hb' => hlt.trans (hb.lt b' hb')⟩
    obtain ⟨ks, hks, hmem, hall⟩ := ih ha.tail hb (fun x hx => Option.mem_some.mp hx ▸ ⟨ha.lt, hbs⟩)
      fun y hy => ⟨fun a' ha' => (hlb y hy).1 a' (List.mem_cons_of_mem a ha'), (hlb y hy).2⟩
    have hfirst : ∀ k ∈ ks, ak a < k := lt_of_mem_both hmem ha.lt hbs
    rw [cmerged_cons_cons, if_pos hlt]
    refine ⟨ak a :: ks, List.pairwise_cons.mpr ⟨hfirst, hks⟩, fun k => ?_, .cons ⟨?_, ?_, ?_, ?_⟩ (hall.imp fun k r h =>
      h.step_left fun x hx => ((hla x hx).1 a List.mem_cons_self).le)⟩
    · rw [List.mem_cons, hmem, List.map_cons, List.map_cons, List.mem_cons (b := ak a), or_assoc]
    · exact fun x hx => ((hla x hx).1 a List.mem_cons_self).le
    · exact fun y hy => ((hlb y hy).1 a List.mem_cons_self).le
    · exact isLatest_self (List.mem_append_right _ List.mem_cons_self)
    · exact isLatest_last (fun y hy => ((hlb y hy).1 a List.mem_cons_self).le) hbs
  | case4 a as la b bs lb hlt hgt ih =>
    have has : ∀ a' ∈ a :: as, bk b < ak a' := List.forall_mem_cons.mpr ⟨hgt, fun a' ha' => hgt.trans (ha.lt a' ha')⟩
    obtain ⟨ks, hks, hmem, hall⟩ := ih ha hb.tail
      (fun x hx => ⟨(hla x hx).1, fun b' hb' => (hla x hx).2 b' (List.mem_cons_of_mem b hb')⟩)
      fun y hy => Option.mem_some.mp hy ▸ ⟨has, hb.lt⟩
    have hfirst : ∀ k ∈ ks, bk b < k := lt_of_mem_both hmem has hb.lt
    rw [cmerged_cons_cons, if_neg hlt, if_pos hgt]
    refine ⟨bk b :: ks, List.pairwise_cons.mpr ⟨hfirst, hks⟩, fun k => ?_, .cons ⟨?_, ?_, ?_, ?_⟩ (hall.imp fun k r h =>
      h.step_right fun y hy => ((hlb y hy).2 b List.mem_cons_self).le)⟩
    · rw [List.mem_cons, hmem, List.map_cons (l := bs), List.mem_cons (b := bk b) (l := bs.map bk)]
      exact or_left_comm
    · exact fun x hx => ((hla x hx).2 b List.mem_cons_self).le
    · exact fun y hy => ((hlb y hy).2 b List.mem_cons_self).le
    · exact isLatest_last (fun x hx => ((hla x hx).2 b List.mem_cons_self).le) has
    · exact isLatest_self (List.mem_append_right _ List.mem_cons_self)
  | case5 a as la b bs lb hlt hgt ih =>
    have heq : ak a = bk b := le_antisymm (not_lt.mp hgt) (not_lt.mp hlt)
    obtain ⟨ks, hks, hmem, hall⟩ := ih ha.tail hb.tail
      (fun x hx => Option.mem_some.mp hx ▸ ⟨ha.lt, fun b' hb' => heq ▸ hb.lt b' hb'⟩)
      fun y hy => Option.mem_some.mp hy ▸ ⟨fun a' ha' => heq ▸ ha.lt a' ha', hb.lt⟩
    have hfirst : ∀ k ∈ ks, ak a < k := lt_of_mem_both hmem ha.lt fun b' hb' => heq ▸ hb.lt b' hb'
    rw [cmerged_cons_cons, if_neg hlt, if_neg hgt]
    refine ⟨ak a :: ks, List.pairwise_cons.mpr ⟨hfirst, hks⟩, fun k => ?_, .cons ⟨?_, ?_, ?_, ?_⟩ (hall.imp fun k r h =>
      (h.step_left fun x hx => ((hla x hx).1 a List.mem_cons_self).le).step_right
        fun y hy => ((hlb y hy).2 b List.mem_cons_self).le)⟩
    · rw [List.mem_cons, hmem, List.map_cons, List.map_cons, List.mem_cons, List.mem_cons, ← heq]
      exact or_or_distrib_left
    · exact fun x hx => ((hla x hx).1 a List.mem_cons_self).le
    · exact fun y hy => ((hlb y hy).1 a List.mem_cons_self).le
    · exact isLatest_self (List.mem_append_right _ List.mem_cons_self)
    · rw [heq]
      exact isLatest_self (List.mem_append_right _ List.mem_cons_self)

/-- Merging arrays with ascending keys: one element for each key, the right one where both have one; and one entry for
each key, with the last elements of both that are not behind it. -/
theorem merged_spec {p : α → κ} {xs ys : List α} (hx : AscendingBy p xs) (hy : AscendingBy p ys) {ak : α → κ}
    {as : List α} {bk : β → κ} {bs : List β} (ha : AscendingBy ak as) (hb : AscendingBy bk bs) :
    (∃ zs, mergeWith p xs ys = some zs ∧ AscendingBy p zs ∧
      ∀ z, z ∈ zs ↔ z ∈ ys ∨ z ∈ xs ∧ ∀ y ∈ ys, p y ≠ p z) ∧
    ∃ rs, ∃ ks : List κ, cmergeWith ak as bk bs = some rs ∧ ks.Pairwise (· < ·) ∧
      (∀ k, k ∈ ks ↔ k ∈ as.map ak ∨ k ∈ bs.map bk) ∧
      List.Forall₂ (fun k r => IsLatest ak as k r.1 ∧ IsLatest bk bs k r.2) ks rs := by
  refine ⟨⟨_, mergeWith_eq p xs ys, ascending_mergedWith hx hy, mem_mergedWith hx hy⟩, ?_⟩
  obtain ⟨ks, hks, hmem, hall⟩ := @cmerged_spec _ _ _ _ ak as none bk bs none ha hb (fun _ h => nomatch h)
    fun _ h => nomatch h
  exact ⟨_, ks, cmergeWith_eq ak as bk bs, hks, hmem, hall.imp fun k r h => ⟨h.left, h.right⟩⟩

/-- One side starts late and the other one ends early. -/
theorem merged_spec_small : AscendingBy id [1, 3] ∧ AscendingBy id [2, 3, 4] ∧
    (∃ zs, mergeWith id [1, 3] [2, 3, 4] = some zs ∧ AscendingBy id zs ∧
      ∀ z, z ∈ zs ↔ z ∈ [2, 3, 4] ∨ z ∈ [1, 3] ∧ ∀ y ∈ [2, 3, 4], id y ≠ id z) ∧
    ∃ rs, ∃ ks : List ℕ, cmergeWith id [1, 3] id [2, 3, 4] = some rs ∧ ks.Pairwise (· < ·) ∧
      (∀ k, k ∈ ks ↔ k ∈ [1, 3].map id ∨ k ∈ [2, 3, 4].map id) ∧
      List.Forall₂ (fun k r => IsLatest id [1, 3] k r.1 ∧ IsLatest id [2, 3, 4] k r.2) ks rs := by
  have hx : AscendingBy id [1, 3] := by simp [AscendingBy]
  have hy : AscendingBy id [2, 3, 4] := by simp [AscendingBy]
  exact ⟨hx, hy, merged_spec hx hy hx hy⟩

example : cmergeWith id [1, 3] id [2, 3, 4] =
    some [(some 1, none), (some 1, some 2), (some 3, some 3), (some 3, some 4)] := by decide +kernel

end Hobbes.Boot
