import Hobbes.Boot.Groups
import Hobbes.Core.Lists
import Mathlib.Data.List.Perm.Basic
import Mathlib.Data.List.ProdSigma

/-!
# Joins

Two arrays are joined by going through their groups side by side, in the order of the keys.
-/

namespace Hobbes.Boot

variable {α β γ κ : Type*}

def almapRange (f : α → β) (xs : List α) (i e : ℕ) : Option (List β) :=
  if i = e then some []
  else if e < i then none
  else xs[i]?.bind fun x => (almapRange f xs (i + 1) e).map fun r => f x :: r
termination_by e - i

section Ordered

variable [LinearOrder κ]

def mergeGroups (gxs : List (κ × List α)) (i : ℕ) (gys : List (κ × List β)) (j : ℕ) :
    Option (List (κ × List α × List β)) :=
  if i = gxs.length then almapRange (fun (k, ys) => (k, [], ys)) gys j gys.length
  else if j = gys.length then almapRange (fun (k, xs) => (k, xs, [])) gxs i gxs.length
  else
    match _h : gxs[i]?, _h' : gys[j]? with
    | some gx, some gy =>
      if gx.1 < gy.1 then (mergeGroups gxs (i + 1) gys j).map fun r => (gx.1, gx.2, []) :: r
      else if gy.1 < gx.1 then (mergeGroups gxs i gys (j + 1)).map fun r => (gy.1, [], gy.2) :: r
      else (mergeGroups gxs (i + 1) gys (j + 1)).map fun r => (gx.1, gx.2, gy.2) :: r
    | _, _ => none
termination_by (gxs.length - i) + (gys.length - j)
decreasing_by
  all_goals
    have hi := (List.getElem?_eq_some_iff.mp _h).1
    have hj := (List.getElem?_eq_some_iff.mp _h').1
    omega

def preJoinBy (xp : α → κ) (xs : List α) (yp : β → κ) (ys : List β) : Option (List (κ × List α × List β)) :=
  (groupBy xp xs).bind fun gxs => (groupBy yp ys).bind fun gys => (mergeGroups gxs 0 gys 0).bind toArray

def joinBy (xp : α → κ) (xs : List α) (yp : β → κ) (ys : List β) : Option (List (α × β)) :=
  (preJoinBy xp xs yp ys).bind fun ps =>
    (fmap (fun (_, gxs, gys) => productWith (fun x y => (x, y)) gxs gys) ps).bind concat

def outerJoinBy (xp : α → κ) (xs : List α) (nullx : α) (yp : β → κ) (ys : List β) (nully : β) :
    Option (List (κ × α × β)) :=
  (preJoinBy xp xs yp ys).bind fun ps =>
    (fmap (fun (k, gxs, gys) =>
      match gxs, gys with
      | _, [] => fmap (fun x => some (k, x, nully)) gxs
      | [], _ => fmap (fun y => some (k, nullx, y)) gys
      | _, _ => (productWith (fun x y => (x, y)) gxs gys).bind (fmap fun (x, y) => some (k, x, y))) ps).bind concat

/-! ### Groups side by side -/

lemma almapRange_eq (f : α → β) {xs : List α} {i : ℕ} (hi : i ≤ xs.length) :
    almapRange f xs i xs.length = some ((xs.drop i).map f) := by
  rw [almapRange]
  rcases Nat.eq_or_lt_of_le hi with rfl | hlt
  · rw [if_pos rfl, List.drop_length, List.map_nil]
  · rw [if_neg hlt.ne, if_neg (by omega), List.getElem?_eq_getElem hlt, Option.bind_some, almapRange_eq f hlt,
      Option.map_some, List.drop_eq_getElem_cons hlt, List.map_cons]
termination_by xs.length - i

/-- The groups of both, by key. -/
def merged : List (κ × List α) → List (κ × List β) → List (κ × List α × List β)
  | [], gys => gys.map fun (k, ys) => (k, [], ys)
  | gxs, [] => gxs.map fun (k, xs) => (k, xs, [])
  | gx :: gxs, gy :: gys =>
    if gx.1 < gy.1 then (gx.1, gx.2, []) :: merged gxs (gy :: gys)
    else if gy.1 < gx.1 then (gy.1, [], gy.2) :: merged (gx :: gxs) gys
    else (gx.1, gx.2, gy.2) :: merged gxs gys
termination_by gxs gys => gxs.length + gys.length

lemma merged_nil_left (gys : List (κ × List β)) :
    merged ([] : List (κ × List α)) gys = gys.map fun (k, ys) => (k, [], ys) := by
  rw [merged]

lemma merged_nil_right (gxs : List (κ × List α)) :
    merged gxs ([] : List (κ × List β)) = gxs.map fun (k, xs) => (k, xs, []) := by
  cases gxs <;> simp [merged]

lemma merged_cons_cons (gx : κ × List α) (gxs : List (κ × List α)) (gy : κ × List β) (gys : List (κ × List β)) :
    merged (gx :: gxs) (gy :: gys) =
      if gx.1 < gy.1 then (gx.1, gx.2, []) :: merged gxs (gy :: gys)
      else if gy.1 < gx.1 then (gy.1, [], gy.2) :: merged (gx :: gxs) gys
      else (gx.1, gx.2, gy.2) :: merged gxs gys := by
  conv_lhs => unfold merged

lemma mergeGroups_eq {gxs : List (κ × List α)} {gys : List (κ × List β)} {i j : ℕ} (hi : i ≤ gxs.length)
    (hj : j ≤ gys.length) : mergeGroups gxs i gys j = some (merged (gxs.drop i) (gys.drop j)) := by
  rw [mergeGroups]
  rcases Nat.eq_or_lt_of_le hi with rfl | hilt
  · rw [if_pos rfl, List.drop_length, merged_nil_left, almapRange_eq _ hj]
  rcases Nat.eq_or_lt_of_le hj with rfl | hjlt
  · rw [if_neg hilt.ne, if_pos rfl, List.drop_length, merged_nil_right, almapRange_eq _ hi]
  have hgx := List.getElem?_eq_getElem hilt
  have hgy := List.getElem?_eq_getElem hjlt
  rw [if_neg hilt.ne, if_neg hjlt.ne, List.drop_eq_getElem_cons hilt, List.drop_eq_getElem_cons hjlt,
    merged_cons_cons]
  split
  · next gx gy hx hy =>
    obtain rfl : gxs[i] = gx := Option.some.inj (hgx.symm.trans hx)
    obtain rfl : gys[j] = gy := Option.some.inj (hgy.symm.trans hy)
    split_ifs
    · rw [mergeGroups_eq hilt hj, Option.map_some, List.drop_eq_getElem_cons hjlt]
    · rw [mergeGroups_eq hi hjlt, Option.map_some, List.drop_eq_getElem_cons hilt]
    · rw [mergeGroups_eq hilt hjlt, Option.map_some]
  · next hno => exact absurd hgy (hno _ _ hgx)
termination_by (gxs.length - i) + (gys.length - j)

lemma preJoinBy_eq (xp : α → κ) (xs : List α) (yp : β → κ) (ys : List β) : preJoinBy xp xs yp ys =
    some (merged (groups xp List.cons [] xs []) (groups yp List.cons [] ys [])) := by
  simp only [preJoinBy, groupBy_eq, Option.bind_some, mergeGroups_eq (Nat.zero_le _) (Nat.zero_le _), List.drop_zero,
    toArray_eq]

lemma mem_keys_merged {gxs : List (κ × List α)} {gys : List (κ × List β)} {k : κ} :
    k ∈ (merged gxs gys).map Prod.fst ↔ k ∈ gxs.map Prod.fst ∨ k ∈ gys.map Prod.fst := by
  induction gxs, gys using merged.induct with
  | case1 gys => simp [merged_nil_left]
  | case2 gxs _ => simp [merged_nil_right]
  | case3 gx gxs gy gys hlt ih =>
    rw [merged_cons_cons, if_pos hlt]
    simp only [List.map_cons, List.mem_cons] at ih ⊢
    rw [ih]
    tauto
  | case4 gx gxs gy gys hlt hgt ih =>
    rw [merged_cons_cons, if_neg hlt, if_pos hgt]
    simp only [List.map_cons, List.mem_cons] at ih ⊢
    rw [ih]
    tauto
  | case5 gx gxs gy gys hlt hgt ih =>
    have heq : gx.1 = gy.1 := le_antisymm (not_lt.mp hgt) (not_lt.mp hlt)
    rw [merged_cons_cons, if_neg hlt, if_neg hgt]
    simp only [List.map_cons, List.mem_cons] at ih ⊢
    rw [ih, ← heq]
    tauto

lemma lt_of_mem_keys {p : κ × β} {gs : List (κ × β)} (h : Ascending (p :: gs)) {k : κ}
    (hk : k ∈ gs.map Prod.fst) : p.1 < k := by
  obtain ⟨q, hq, rfl⟩ := List.mem_map.mp hk
  exact (List.pairwise_cons.mp h).1 q hq

section Side

variable {gx : κ × List α} {gxs : List (κ × List α)} {gy : κ × List β} {gys : List (κ × List β)}

/-- The keys behind the smaller one of the first keys. -/
lemma lt_of_mem_merged_left (hx : Ascending (gx :: gxs)) (hy : Ascending (gy :: gys)) (hlt : gx.1 < gy.1) {k : κ}
    (hk : k ∈ (merged gxs (gy :: gys)).map Prod.fst) : gx.1 < k := by
  rw [mem_keys_merged, List.map_cons, List.mem_cons] at hk
  rcases hk with hk | rfl | hk
  · exact lt_of_mem_keys hx hk
  · exact hlt
  · exact hlt.trans (lt_of_mem_keys hy hk)

lemma lt_of_mem_merged_right (hx : Ascending (gx :: gxs)) (hy : Ascending (gy :: gys)) (hlt : gy.1 < gx.1) {k : κ}
    (hk : k ∈ (merged (gx :: gxs) gys).map Prod.fst) : gy.1 < k := by
  rw [mem_keys_merged, List.map_cons, List.mem_cons] at hk
  rcases hk with (rfl | hk) | hk
  · exact hlt
  · exact hlt.trans (lt_of_mem_keys hx hk)
  · exact lt_of_mem_keys hy hk

lemma lt_of_mem_merged_both (hx : Ascending (gx :: gxs)) (hy : Ascending (gy :: gys)) (heq : gx.1 = gy.1) {k : κ}
    (hk : k ∈ (merged gxs gys).map Prod.fst) : gx.1 < k := by
  rw [mem_keys_merged] at hk
  rcases hk with hk | hk
  · exact lt_of_mem_keys hx hk
  · exact heq ▸ lt_of_mem_keys hy hk

end Side

lemma Ascending.tail {p : κ × β} {gs : List (κ × β)} (h : Ascending (p :: gs)) : Ascending gs :=
  (List.pairwise_cons.mp h).2

lemma ascending_cons {p : κ × β} {gs : List (κ × β)} (hp : ∀ k ∈ gs.map Prod.fst, p.1 < k) (h : Ascending gs) :
    Ascending (p :: gs) := List.pairwise_cons.mpr ⟨fun q hq => hp q.1 (List.mem_map_of_mem hq), h⟩

lemma ascending_merged {gxs : List (κ × List α)} {gys : List (κ × List β)} (hx : Ascending gxs)
    (hy : Ascending gys) : Ascending (merged gxs gys) := by
  induction gxs, gys using merged.induct with
  | case1 gys =>
    rw [merged_nil_left]
    exact List.pairwise_map.mpr hy
  | case2 gxs _ =>
    rw [merged_nil_right]
    exact List.pairwise_map.mpr hx
  | case3 gx gxs gy gys hlt ih =>
    rw [merged_cons_cons, if_pos hlt]
    exact ascending_cons (fun _ => lt_of_mem_merged_left hx hy hlt) (ih hx.tail hy)
  | case4 gx gxs gy gys hlt hgt ih =>
    rw [merged_cons_cons, if_neg hlt, if_pos hgt]
    exact ascending_cons (fun _ => lt_of_mem_merged_right hx hy hgt) (ih hx hy.tail)
  | case5 gx gxs gy gys hlt hgt ih =>
    have heq : gx.1 = gy.1 := le_antisymm (not_lt.mp hgt) (not_lt.mp hlt)
    rw [merged_cons_cons, if_neg hlt, if_neg hgt]
    exact ascending_cons (fun _ => lt_of_mem_merged_both hx hy heq) (ih hx.tail hy.tail)

lemma get_cons_self (p : κ × β) (gs : List (κ × β)) : get p.1 (p :: gs) = some p.2 := if_pos rfl

lemma get_cons_of_ne {p : κ × β} {k : κ} (h : p.1 ≠ k) (gs : List (κ × β)) : get k (p :: gs) = get k gs := if_neg h

/-- A key has its groups from both sides, or none from the side where it does not occur. -/
lemma values_merged {gxs : List (κ × List α)} {gys : List (κ × List β)} (hx : Ascending gxs) (hy : Ascending gys) :
    ∀ p ∈ merged gxs gys, p.2.1 = (get p.1 gxs).getD [] ∧ p.2.2 = (get p.1 gys).getD [] := by
  induction gxs, gys using merged.induct with
  | case1 gys =>
    rw [merged_nil_left]
    intro p hp
    obtain ⟨⟨k, ys⟩, hq, rfl⟩ := List.mem_map.mp hp
    exact ⟨rfl, by rw [hy.get_of_mem hq]; rfl⟩
  | case2 gxs _ =>
    rw [merged_nil_right]
    intro p hp
    obtain ⟨⟨k, xs⟩, hq, rfl⟩ := List.mem_map.mp hp
    exact ⟨by rw [hx.get_of_mem hq]; rfl, rfl⟩
  | case3 gx gxs gy gys hlt ih =>
    rw [merged_cons_cons, if_pos hlt]
    refine List.forall_mem_cons.mpr ⟨?_, fun p hp => ?_⟩
    · rw [get_cons_self, get_eq_none_of_lt hy hlt]
      exact ⟨rfl, rfl⟩
    · rw [get_cons_of_ne (lt_of_mem_merged_left hx hy hlt (List.mem_map_of_mem hp)).ne]
      exact ih hx.tail hy p hp
  | case4 gx gxs gy gys hlt hgt ih =>
    rw [merged_cons_cons, if_neg hlt, if_pos hgt]
    refine List.forall_mem_cons.mpr ⟨?_, fun p hp => ?_⟩
    · rw [get_cons_self, get_eq_none_of_lt hx hgt]
      exact ⟨rfl, rfl⟩
    · rw [get_cons_of_ne (p := gy) (lt_of_mem_merged_right hx hy hgt (List.mem_map_of_mem hp)).ne]
      exact ih hx hy.tail p hp
  | case5 gx gxs gy gys hlt hgt ih =>
    have heq : gx.1 = gy.1 := le_antisymm (not_lt.mp hgt) (not_lt.mp hlt)
    rw [merged_cons_cons, if_neg hlt, if_neg hgt]
    refine List.forall_mem_cons.mpr ⟨?_, fun p hp => ?_⟩
    · dsimp only
      rw [get_cons_self, heq, get_cons_self]
      exact ⟨rfl, rfl⟩
    · have hne := (lt_of_mem_merged_both hx hy heq (List.mem_map_of_mem hp)).ne
      rw [get_cons_of_ne hne, get_cons_of_ne (heq ▸ hne)]
      exact ih hx.tail hy.tail p hp

/-! ### The rows of a join -/

/-- The pairs of elements with equal keys. -/
def pairs (xp : α → κ) (xs : List α) (yp : β → κ) (ys : List β) : List (α × β) :=
  (xs ×ˢ ys).filter fun p => xp p.1 = yp p.2

/-- The pairs with their keys, and the elements whose keys occur on one side only. -/
def outerPairs (xp : α → κ) (xs : List α) (nullx : α) (yp : β → κ) (ys : List β) (nully : β) : List (κ × α × β) :=
  (pairs xp xs yp ys).map (fun p => (xp p.1, p.1, p.2)) ++
    ((xs.filter fun x => ∀ y ∈ ys, yp y ≠ xp x).map (fun x => (xp x, x, nully)) ++
      (ys.filter fun y => ∀ x ∈ xs, xp x ≠ yp y).map (fun y => (yp y, nullx, y)))

/-- The rows of one key in an outer join. -/
def outerRows (nullx : α) (nully : β) (k : κ) (gxs : List α) (gys : List β) : List (κ × α × β) :=
  match gxs, gys with
  | _, [] => gxs.map fun x => (k, x, nully)
  | [], _ => gys.map fun y => (k, nullx, y)
  | _, _ => (gxs ×ˢ gys).map fun p => (k, p.1, p.2)

lemma joinBy_eq (xp : α → κ) (xs : List α) (yp : β → κ) (ys : List β) : joinBy xp xs yp ys =
    some ((merged (groups xp List.cons [] xs []) (groups yp List.cons [] ys [])).flatMap fun p =>
      p.2.1 ×ˢ p.2.2) := by
  simp only [joinBy, preJoinBy_eq, Option.bind_some, productWith_eq, fmap_some, concat_eq]
  rfl

lemma outerJoinBy_eq (xp : α → κ) (xs : List α) (nullx : α) (yp : β → κ) (ys : List β) (nully : β) :
    outerJoinBy xp xs nullx yp ys nully =
      some ((merged (groups xp List.cons [] xs []) (groups yp List.cons [] ys [])).flatMap fun p =>
        outerRows nullx nully p.1 p.2.1 p.2.2) := by
  have hrows : (fun p : κ × List α × List β => (match p.2.1, p.2.2 with
      | _, [] => fmap (fun x => some (p.1, x, nully)) p.2.1
      | [], _ => fmap (fun y => some (p.1, nullx, y)) p.2.2
      | _, _ => (productWith (fun x y => (x, y)) p.2.1 p.2.2).bind (fmap fun (x, y) => some (p.1, x, y)))) =
      fun p => some (outerRows nullx nully p.1 p.2.1 p.2.2) := by
    funext ⟨k, gxs, gys⟩
    cases gys with
    | nil => cases gxs <;> exact fmap_some _ _
    | cons y gys =>
      cases gxs with
      | nil => exact fmap_some _ _
      | cons x gxs =>
        dsimp only
        rw [productWith_eq, Option.bind_some]
        exact fmap_some _ _
  rw [outerJoinBy, preJoinBy_eq, Option.bind_some]
  exact (congrArg (fun f => (fmap f _).bind concat) hrows).trans (by rw [fmap_some, Option.bind_some, concat_eq]; rfl)

/-! ### The rows of one key -/

omit [LinearOrder κ] in
lemma outerRows_nil_right (nullx : α) (nully : β) (k : κ) (gxs : List α) :
    outerRows nullx nully k gxs [] = gxs.map fun x => (k, x, nully) := by
  cases gxs <;> rfl

omit [LinearOrder κ] in
lemma outerRows_nil_left (nullx : α) (nully : β) (k : κ) {gys : List β} (h : gys ≠ []) :
    outerRows nullx nully k [] gys = gys.map fun y => (k, nullx, y) := by
  cases gys with
  | nil => exact absurd rfl h
  | cons y gys => rfl

omit [LinearOrder κ] in
lemma outerRows_of_ne_nil (nullx : α) (nully : β) (k : κ) {gxs : List α} {gys : List β} (hx : gxs ≠ [])
    (hy : gys ≠ []) : outerRows nullx nully k gxs gys = (gxs ×ˢ gys).map fun p => (k, p.1, p.2) := by
  cases gxs with
  | nil => exact absurd rfl hx
  | cons x gxs =>
    cases gys with
    | nil => exact absurd rfl hy
    | cons y gys => rfl

omit [LinearOrder κ] in
lemma outerRows_perm (nullx : α) (nully : β) (k : κ) {gxs gxs' : List α} {gys gys' : List β} (hx : gxs.Perm gxs')
    (hy : gys.Perm gys') : (outerRows nullx nully k gxs gys).Perm (outerRows nullx nully k gxs' gys') := by
  by_cases hgys : gys = []
  · rw [hgys] at hy ⊢
    rw [hy.nil_eq.symm, outerRows_nil_right, outerRows_nil_right]
    exact hx.map _
  have hgys' : gys' ≠ [] := fun h => hgys (h ▸ hy).eq_nil
  by_cases hgxs : gxs = []
  · rw [hgxs] at hx ⊢
    rw [hx.nil_eq.symm, outerRows_nil_left _ _ _ hgys, outerRows_nil_left _ _ _ hgys']
    exact hy.map _
  have hgxs' : gxs' ≠ [] := fun h => hgxs (h ▸ hx).eq_nil
  rw [outerRows_of_ne_nil _ _ _ hgxs hgys, outerRows_of_ne_nil _ _ _ hgxs' hgys']
  exact (hx.product hy).map _

section OneSide

variable {xp : α → κ} {xs : List α} {yp : β → κ} {ys : List β} {k : κ}

/-- A key that does not occur on the other side. -/
lemma filter_only_of_nil (h : (ys.filter fun y => yp y = k) = []) :
    ((xs.filter fun x => ∀ y ∈ ys, yp y ≠ xp x).filter fun x => xp x = k) = xs.filter fun x => xp x = k := by
  rw [List.filter_filter]
  refine List.filter_congr fun x _ => ?_
  by_cases hx : xp x = k
  · have hno : ∀ y ∈ ys, yp y ≠ k := fun y hy hk => List.filter_eq_nil_iff.mp h y hy (decide_eq_true hk)
    simpa [hx] using hno
  · simp [hx]

/-- A key that occurs on the other side. -/
lemma filter_only_of_ne_nil (h : (ys.filter fun y => yp y = k) ≠ []) :
    ((xs.filter fun x => ∀ y ∈ ys, yp y ≠ xp x).filter fun x => xp x = k) = [] := by
  obtain ⟨y, hy⟩ := List.exists_mem_of_ne_nil _ h
  obtain ⟨hmem, hk⟩ := List.mem_filter.mp hy
  refine List.filter_eq_nil_iff.mpr fun x hx hxk => ?_
  have hno := of_decide_eq_true (List.mem_filter.mp hx).2
  exact hno y hmem ((of_decide_eq_true hk).trans (of_decide_eq_true hxk).symm)

end OneSide

/-! ### Joins by keys -/

lemma filter_pairs (xp : α → κ) (xs : List α) (yp : β → κ) (ys : List β) (k : κ) :
    (pairs xp xs yp ys).filter (fun p => xp p.1 = k) =
      (xs.filter fun x => xp x = k) ×ˢ (ys.filter fun y => yp y = k) := by
  rw [pairs, List.filter_filter]
  induction xs with
  | nil => rfl
  | cons x xs ih =>
    rw [List.product_cons, List.filter_append, ih, List.filter_map]
    by_cases hk : xp x = k
    · rw [List.filter_cons_of_pos (p := fun x => decide (xp x = k)) (decide_eq_true hk), List.product_cons]
      congr 2
      refine List.filter_congr fun y _ => ?_
      simp [hk, eq_comm]
    · rw [List.filter_cons_of_neg (p := fun x => decide (xp x = k)) (by rwa [decide_eq_true_iff])]
      have hnil : (ys.filter ((fun p : α × β => decide (xp p.1 = k) && decide (xp p.1 = yp p.2)) ∘ Prod.mk x)) = [] :=
        List.filter_eq_nil_iff.mpr fun y _ => by simp [hk]
      rw [hnil, List.map_nil, List.nil_append]

lemma get_groups_perm (xp : α → κ) (xs : List α) (k : κ) :
    ((get k (groups xp List.cons [] xs [])).getD []).Perm (xs.filter fun x => xp x = k) := by
  rw [get_groups_nil]
  split_ifs with h
  · have hperm := foldl_cons_perm (xs.filter fun x => xp x = k) []
    rwa [List.append_nil] at hperm
  · have hnil : (xs.filter fun x => xp x = k) = [] :=
      List.filter_eq_nil_iff.mpr fun x hx hk => h ⟨x, hx, of_decide_eq_true hk⟩
    rw [hnil]
    exact .refl _

lemma mem_keys_groups {xp : α → κ} {xs : List α} {k : κ} :
    k ∈ (groups xp List.cons [] xs []).map Prod.fst ↔ ∃ x ∈ xs, xp x = k := by
  rw [← (isGrouping_groups xp xs).mem_keys k, List.mem_map]
  exact ⟨fun ⟨p, hp, hk⟩ => ⟨p.2, hk ▸ hp⟩, fun ⟨vs, hvs⟩ => ⟨_, hvs, rfl⟩⟩

section Keys

variable (xp : α → κ) (xs : List α) (yp : β → κ) (ys : List β)

/-- The keys of both sides, in their order. -/
def joinKeys : List κ := (merged (groups xp List.cons [] xs []) (groups yp List.cons [] ys [])).map Prod.fst

lemma nodup_joinKeys : (joinKeys xp xs yp ys).Nodup := by
  have hasc := ascending_merged (isGrouping_groups xp xs).ascending (isGrouping_groups yp ys).ascending
  exact (List.pairwise_map.mpr hasc).imp fun hlt => hlt.ne

lemma mem_joinKeys {k : κ} : k ∈ joinKeys xp xs yp ys ↔ (∃ x ∈ xs, xp x = k) ∨ ∃ y ∈ ys, yp y = k := by
  rw [joinKeys, mem_keys_merged, mem_keys_groups, mem_keys_groups]

/-- What is made of the groups of each key is, up to order, made of the elements with that key. -/
lemma flatMap_merged_perm (rows : κ → List α → List β → List γ)
    (hrows : ∀ k {gxs gxs' : List α} {gys gys' : List β}, gxs.Perm gxs' → gys.Perm gys' →
      (rows k gxs gys).Perm (rows k gxs' gys')) :
    ((merged (groups xp List.cons [] xs []) (groups yp List.cons [] ys [])).flatMap fun p => rows p.1 p.2.1 p.2.2).Perm
      ((joinKeys xp xs yp ys).flatMap fun k => rows k (xs.filter fun x => xp x = k) (ys.filter fun y => yp y = k)) := by
  rw [joinKeys, List.flatMap_map]
  refine List.Perm.flatMap_left _ fun p hp => ?_
  obtain ⟨hx, hy⟩ := values_merged (isGrouping_groups xp xs).ascending (isGrouping_groups yp ys).ascending p hp
  rw [hx, hy]
  exact hrows p.1 (get_groups_perm xp xs p.1) (get_groups_perm yp ys p.1)

lemma joinBy_perm : ((merged (groups xp List.cons [] xs []) (groups yp List.cons [] ys [])).flatMap fun p =>
    p.2.1 ×ˢ p.2.2).Perm (pairs xp xs yp ys) := by
  have hcover : ∀ p ∈ pairs xp xs yp ys, xp p.1 ∈ joinKeys xp xs yp ys := fun p hp =>
    (mem_joinKeys xp xs yp ys).mpr (.inl ⟨p.1, (List.mem_product.mp (List.mem_filter.mp hp).1).1, rfl⟩)
  refine (flatMap_merged_perm xp xs yp ys (fun _ gxs gys => gxs ×ˢ gys)
    fun _ _ _ _ _ hx hy => hx.product hy).trans ?_
  refine .trans (.of_eq ?_) (Core.perm_flatMap_filter (nodup_joinKeys xp xs yp ys) hcover).symm
  simp only [filter_pairs]

lemma map_filter_key (f : α → β) (key : α → κ) (k : κ) (as : List α) :
    ((as.map fun a => (key a, f a)).filter fun r => r.1 = k) =
      (as.filter fun a => key a = k).map fun a => (k, f a) := by
  rw [List.filter_map]
  refine List.map_congr_left fun a ha => ?_
  have hk : key a = k := of_decide_eq_true (List.mem_filter.mp ha).2
  rw [hk]

lemma filter_outerPairs (nullx : α) (nully : β) (k : κ) :
    ((outerPairs xp xs nullx yp ys nully).filter fun r => r.1 = k) =
      outerRows nullx nully k (xs.filter fun x => xp x = k) (ys.filter fun y => yp y = k) := by
  rw [outerPairs, List.filter_append, List.filter_append,
    map_filter_key (fun p : α × β => (p.1, p.2)) (fun p => xp p.1), filter_pairs,
    map_filter_key (fun x : α => (x, nully)) xp, map_filter_key (fun y : β => (nullx, y)) yp]
  by_cases hy : (ys.filter fun y => yp y = k) = []
  · have hno : ((ys.filter fun y => ∀ x ∈ xs, xp x ≠ yp y).filter fun y => yp y = k) = [] :=
      List.filter_eq_nil_iff.mpr fun y hmem hk => List.filter_eq_nil_iff.mp hy y (List.mem_filter.mp hmem).1 hk
    rw [filter_only_of_nil hy, hno, hy, outerRows_nil_right, List.product_nil, List.map_nil, List.map_nil,
      List.nil_append, List.append_nil]
  by_cases hx : (xs.filter fun x => xp x = k) = []
  · rw [filter_only_of_ne_nil hy, filter_only_of_nil hx, hx, outerRows_nil_left _ _ _ hy]
    rfl
  · rw [filter_only_of_ne_nil hy, filter_only_of_ne_nil hx, outerRows_of_ne_nil _ _ _ hx hy, List.map_nil,
      List.map_nil, List.append_nil, List.append_nil]

lemma outerJoinBy_perm (nullx : α) (nully : β) :
    ((merged (groups xp List.cons [] xs []) (groups yp List.cons [] ys [])).flatMap fun p =>
      outerRows nullx nully p.1 p.2.1 p.2.2).Perm (outerPairs xp xs nullx yp ys nully) := by
  have hcover : ∀ r ∈ outerPairs xp xs nullx yp ys nully, r.1 ∈ joinKeys xp xs yp ys := fun r hr => by
    rw [mem_joinKeys]
    rcases List.mem_append.mp hr with hr | hr
    · obtain ⟨p, hp, rfl⟩ := List.mem_map.mp hr
      exact .inl ⟨p.1, (List.mem_product.mp (List.mem_filter.mp hp).1).1, rfl⟩
    rcases List.mem_append.mp hr with hr | hr
    · obtain ⟨x, hx, rfl⟩ := List.mem_map.mp hr
      exact .inl ⟨x, (List.mem_filter.mp hx).1, rfl⟩
    · obtain ⟨y, hy, rfl⟩ := List.mem_map.mp hr
      exact .inr ⟨y, (List.mem_filter.mp hy).1, rfl⟩
  refine (flatMap_merged_perm xp xs yp ys (outerRows nullx nully)
    fun k _ _ _ _ hx hy => outerRows_perm nullx nully k hx hy).trans ?_
  refine .trans (.of_eq ?_) (Core.perm_flatMap_filter (nodup_joinKeys xp xs yp ys) hcover).symm
  simp only [filter_outerPairs]

end Keys

/-! ### The operators -/

/-- Grouping, counting and joining. -/
theorem joins_spec (xp : α → κ) (xs : List α) (nullx : α) (yp : β → κ) (ys : List β) (nully : β) (ks : List κ) :
    (∃ gs, groupBy xp xs = some gs ∧ IsGrouping xp xs gs ∧
      countBy xp xs = some (gs.map fun g => (g.1, g.2.length))) ∧
    (∃ us, unique ks = some us ∧ us.Pairwise (· < ·) ∧ ∀ k, k ∈ us ↔ k ∈ ks) ∧
    (∃ ps, joinBy xp xs yp ys = some ps ∧ ps.Perm (pairs xp xs yp ys)) ∧
    ∃ rs, outerJoinBy xp xs nullx yp ys nully = some rs ∧ rs.Perm (outerPairs xp xs nullx yp ys nully) := by
  refine ⟨⟨_, groupBy_eq xp xs, isGrouping_groups xp xs, ?_⟩, ⟨_, unique_eq ks, ?_, fun _ => mem_unique⟩,
    ⟨_, joinBy_eq xp xs yp ys, joinBy_perm xp xs yp ys⟩,
    _, outerJoinBy_eq xp xs nullx yp ys nully, outerJoinBy_perm xp xs yp ys nullx nully⟩
  · exact countBy_eq xp xs
  · exact List.pairwise_map.mpr (Ascending.groups .nil id _ _ ks)

end Ordered

end Hobbes.Boot
