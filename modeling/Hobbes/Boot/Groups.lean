import Hobbes.Boot.Search

/-!
# Groups

The groups of an array are kept in one array that has room for as many groups as there are elements. They are ordered
by their keys; the part that has been filled is searched by bisection, and later groups are pushed down for a new one.
-/

namespace Hobbes.Boot

open Core

variable {α β κ : Type*}

def pushDownFromTo (xs : Slots α) (i e : ℕ) : Option (Slots α) :=
  if i = e then some xs
  else if e < i then none
  else (pushDownFromTo xs (i + 1) e).bind fun xs => (xs.read i).bind fun x => xs.write (i + 1) x
termination_by e - i

section Ordered

variable [LinearOrder κ]

def foldGroupsInt (gby : α → κ) (f : α → β → β) (xs : List α) (i : ℕ) (z : β) (gs : Slots (κ × β)) (ge : ℕ) :
    Option (List (κ × β)) :=
  if i = xs.length then (unsafeSetLength gs ge).bind Slots.elems
  else
    match _h : xs[i]? with
    | none => none
    | some x =>
      let g := gby x
      (lowerBoundFi gs.read Prod.fst g 0 ge).bind fun j =>
        if j = ge then
          (gs.write j (g, f x z)).bind fun gs => foldGroupsInt gby f xs (i + 1) z gs (ge + 1)
        else
          (gs.read j).bind fun gv =>
            if gv.1 = g then
              (gs.write j (gv.1, f x gv.2)).bind fun gs => foldGroupsInt gby f xs (i + 1) z gs ge
            else
              (pushDownFromTo gs j ge).bind fun gs =>
                (gs.write j (g, f x z)).bind fun gs => foldGroupsInt gby f xs (i + 1) z gs (ge + 1)
termination_by xs.length - i
decreasing_by
  all_goals
    have hi := (List.getElem?_eq_some_iff.mp _h).1
    omega

def foldGroups (gby : α → κ) (f : α → β → β) (xs : List α) (z : β) : Option (List (κ × β)) :=
  foldGroupsInt gby f xs 0 z (Slots.alloc xs.length) 0

def groupBy (gby : α → κ) (xs : List α) : Option (List (κ × List α)) :=
  (foldGroups gby List.cons xs []).bind fun gs => fmap (fun (k, vs) => (toArray vs).map fun vs => (k, vs)) gs

def countBy (gby : α → κ) (xs : List α) : Option (List (κ × ℕ)) := foldGroups gby (fun _ c => c + 1) xs 0

/-- The groups of unit values have the layout of their keys. -/
def unique (xs : List κ) : Option (List κ) :=
  (foldGroups id (fun _ _ => ()) xs ()).map fun gs => gs.map Prod.fst

end Ordered

/-! ### Making room -/

/-- The elements behind `as` are moved by one place, and the first of them stays. -/
lemma pushDownFromTo_filledTo (as : List α) (b : α) (bs : List α) (k : ℕ) :
    pushDownFromTo (Slots.filledTo (as ++ b :: bs) (k + 1)) as.length (as ++ b :: bs).length =
      some (Slots.filledTo (as ++ b :: b :: bs) k) := by
  have hlen : (as ++ b :: bs).length = as.length + bs.length + 1 := by
    rw [List.length_append, List.length_cons, Nat.add_assoc]
  rw [pushDownFromTo, if_neg (by omega), if_neg (by omega)]
  cases bs with
  | nil =>
    have hnext := Slots.write_filledTo (as ++ [b]) k b
    rw [List.length_append, List.length_singleton] at hnext
    rw [pushDownFromTo, if_pos (by rw [hlen, List.length_nil]), Option.bind_some, Slots.read_filledTo,
      List.getElem?_append_right le_rfl, Nat.sub_self, List.getElem?_cons_zero, Option.bind_some, hnext,
      List.append_assoc, List.singleton_append]
  | cons c cs =>
    have ih := pushDownFromTo_filledTo (as ++ [b]) c cs k
    rw [List.append_assoc, List.singleton_append, List.append_assoc, List.singleton_append, List.length_append,
      List.length_singleton] at ih
    have hset : (as ++ b :: c :: c :: cs).set (as.length + 1) b = as ++ b :: b :: c :: cs := by
      rw [List.set_append_right _ _ (by omega), Nat.add_sub_cancel_left]
      rfl
    rw [ih, Option.bind_some, Slots.read_filledTo, List.getElem?_append_right le_rfl, Nat.sub_self,
      List.getElem?_cons_zero, Option.bind_some, Slots.write_filledTo_of_lt (by simp), hset]
termination_by bs.length

/-! ### Groups as a list -/

section Ordered

variable [LinearOrder κ]

/-- The keys ascend. -/
def Ascending (gs : List (κ × β)) : Prop := gs.Pairwise fun p q => p.1 < q.1

lemma Ascending.sortedBy {gs : List (κ × β)} (h : Ascending gs) : SortedBy Prod.fst gs := h.imp fun hlt => hlt.le

/-- Add an element to its group, or a new group for it. -/
def addTo (f : α → β → β) (z : β) (g : κ) (x : α) : List (κ × β) → List (κ × β)
  | [] => [(g, f x z)]
  | (k, v) :: gs =>
    if k < g then (k, v) :: addTo f z g x gs
    else if k = g then (k, f x v) :: gs
    else (g, f x z) :: (k, v) :: gs

variable {f : α → β → β} {z : β} {g : κ} {x : α}

lemma addTo_append {as : List (κ × β)} (h : ∀ p ∈ as, p.1 < g) (bs : List (κ × β)) :
    addTo f z g x (as ++ bs) = as ++ addTo f z g x bs := by
  induction as with
  | nil => rfl
  | cons p as ih =>
    obtain ⟨k, v⟩ := p
    rw [List.forall_mem_cons] at h
    rw [List.cons_append, addTo, if_pos h.1, ih h.2, List.cons_append]

/-- The groups before and behind the place for a key. -/
lemma Ascending.exists_split {gs : List (κ × β)} (h : Ascending gs) (g : κ) :
    ∃ as bs, gs = as ++ bs ∧ as.length = below Prod.fst g gs ∧ (∀ p ∈ as, p.1 < g) ∧ ∀ p ∈ bs, g ≤ p.1 := by
  refine ⟨gs.take (below Prod.fst g gs), gs.drop (below Prod.fst g gs), (List.take_append_drop _ _).symm, ?_, ?_, ?_⟩
  · rw [List.length_take]
    exact min_eq_left (below_le_length _ _ _)
  · rw [h.sortedBy.take_below]
    exact fun p hp => of_decide_eq_true (List.mem_filter.mp hp).2
  · rw [h.sortedBy.drop_below]
    exact fun p hp => of_decide_eq_true (List.mem_filter.mp hp).2

lemma mem_keys_addTo {gs : List (κ × β)} {p : κ × β} (h : p ∈ addTo f z g x gs) : p.1 = g ∨ ∃ q ∈ gs, p.1 = q.1 := by
  induction gs with
  | nil => exact .inl (congrArg Prod.fst (List.mem_singleton.mp h))
  | cons q gs ih =>
    obtain ⟨k, v⟩ := q
    rw [addTo] at h
    split_ifs at h with hlt heq
    · rcases List.mem_cons.mp h with rfl | h
      · exact .inr ⟨_, List.mem_cons_self, rfl⟩
      · exact (ih h).imp_right fun ⟨q, hq, hpq⟩ => ⟨q, List.mem_cons_of_mem _ hq, hpq⟩
    · rcases List.mem_cons.mp h with rfl | h
      · exact .inl heq
      · exact .inr ⟨p, List.mem_cons_of_mem _ h, rfl⟩
    · rcases List.mem_cons.mp h with rfl | h
      · exact .inl rfl
      · exact .inr ⟨p, h, rfl⟩

lemma Ascending.addTo {gs : List (κ × β)} (h : Ascending gs) (f : α → β → β) (z : β) (g : κ) (x : α) :
    Ascending (addTo f z g x gs) := by
  induction gs with
  | nil => exact List.pairwise_singleton _ _
  | cons q gs ih =>
    obtain ⟨k, v⟩ := q
    obtain ⟨hk, hgs⟩ := List.pairwise_cons.mp h
    rw [Boot.addTo]
    split_ifs with hlt heq
    · refine List.pairwise_cons.mpr ⟨fun p hp => ?_, ih hgs⟩
      rcases mem_keys_addTo hp with hpg | ⟨q, hq, hpq⟩
      · exact hpg ▸ hlt
      · exact hpq ▸ hk q hq
    · exact List.pairwise_cons.mpr ⟨hk, hgs⟩
    · have hgk : g < k := lt_of_le_of_ne (not_lt.mp hlt) (Ne.symm heq)
      refine List.pairwise_cons.mpr ⟨fun p hp => ?_, h⟩
      rcases List.mem_cons.mp hp with rfl | hp
      · exact hgk
      · exact hgk.trans (hk p hp)

/-! ### The array of groups -/

lemma foldGroupsInt_of_some {gby : α → κ} {xs : List α} {i : ℕ} (hx : xs[i]? = some x) (gs : Slots (κ × β))
    (ge : ℕ) : foldGroupsInt gby f xs i z gs ge =
      (lowerBoundFi gs.read Prod.fst (gby x) 0 ge).bind fun j =>
        if j = ge then
          (gs.write j (gby x, f x z)).bind fun gs => foldGroupsInt gby f xs (i + 1) z gs (ge + 1)
        else
          (gs.read j).bind fun gv =>
            if gv.1 = gby x then
              (gs.write j (gv.1, f x gv.2)).bind fun gs => foldGroupsInt gby f xs (i + 1) z gs ge
            else
              (pushDownFromTo gs j ge).bind fun gs =>
                (gs.write j (gby x, f x z)).bind fun gs => foldGroupsInt gby f xs (i + 1) z gs (ge + 1) := by
  have hi : i ≠ xs.length := by
    have := (List.getElem?_eq_some_iff.mp hx).1
    omega
  rw [foldGroupsInt, if_neg hi]
  split
  · next hnone => exact absurd (hx.symm.trans hnone) (by simp)
  · next y hy =>
    obtain rfl : x = y := Option.some.inj (hx.symm.trans hy)
    rfl

/-- What one element does to the array. -/
lemma foldGroupsInt_step {gby : α → κ} {xs : List α} {i : ℕ} {gs : List (κ × β)} (hgs : Ascending gs)
    (hx : xs[i]? = some x) (k : ℕ) : ∃ k', k ≤ k' ∧
      foldGroupsInt gby f xs i z (Slots.filledTo gs (k + 1)) gs.length =
        foldGroupsInt gby f xs (i + 1) z (Slots.filledTo (addTo f z (gby x) x gs) k')
          (addTo f z (gby x) x gs).length := by
  have hread : (Slots.filledTo gs (k + 1)).read = fun i => gs[i]? :=
    funext fun i => Slots.read_filledTo gs (k + 1) i
  have hsearch := hgs.sortedBy.lowerBoundFi_zero (gby x)
  obtain ⟨as, bs, hsplit, hlen, has, hbs⟩ := hgs.exists_split (gby x)
  rw [← hlen, ← hread] at hsearch
  rw [foldGroupsInt_of_some hx, hsearch, Option.bind_some]
  subst hsplit
  rw [addTo_append has]
  cases bs with
  | nil =>
    refine ⟨k, le_rfl, ?_⟩
    rw [List.append_nil, if_pos rfl, Slots.write_filledTo, Option.bind_some, addTo, List.length_append,
      List.length_singleton]
  | cons p bs =>
    obtain ⟨g, v⟩ := p
    have hg : gby x ≤ g := hbs (g, v) List.mem_cons_self
    have hlt : as.length < (as ++ (g, v) :: bs).length := by
      rw [List.length_append, List.length_cons]
      omega
    have hget : (as ++ (g, v) :: bs)[as.length]? = some (g, v) := by
      rw [List.getElem?_append_right le_rfl, Nat.sub_self, List.getElem?_cons_zero]
    rw [if_neg hlt.ne, Slots.read_filledTo, hget, Option.bind_some, addTo, if_neg (not_lt.mpr hg)]
    dsimp only
    by_cases heq : g = gby x
    · refine ⟨k + 1, Nat.le_succ k, ?_⟩
      rw [if_pos heq, if_pos heq, Slots.write_filledTo_of_lt hlt, Option.bind_some,
        List.set_append_right _ _ le_rfl, Nat.sub_self, List.set_cons_zero, List.length_append, List.length_append,
        List.length_cons, List.length_cons]
    · refine ⟨k, le_rfl, ?_⟩
      have hlt' : as.length < (as ++ (g, v) :: (g, v) :: bs).length := by
        rw [List.length_append, List.length_cons]
        omega
      rw [if_neg heq, if_neg heq, pushDownFromTo_filledTo, Option.bind_some, Slots.write_filledTo_of_lt hlt',
        Option.bind_some, List.set_append_right _ _ le_rfl, Nat.sub_self, List.set_cons_zero, List.length_append,
        List.length_append, List.length_cons, List.length_cons, List.length_cons, Nat.add_assoc]

/-- The elements are added to the groups one after the other. -/
lemma foldGroupsInt_eq {gby : α → κ} {xs : List α} {i k : ℕ} {gs : List (κ × β)} (hgs : Ascending gs)
    (hi : i ≤ xs.length) (hroom : xs.length ≤ i + k) :
    foldGroupsInt gby f xs i z (Slots.filledTo gs k) gs.length =
      some ((xs.drop i).foldl (fun gs x => addTo f z (gby x) x gs) gs) := by
  rcases Nat.eq_or_lt_of_le hi with rfl | hlt
  · rw [foldGroupsInt, if_pos rfl, unsafeSetLength_filledTo, List.drop_length, List.foldl_nil]
  · obtain ⟨k, rfl⟩ : ∃ k', k = k' + 1 := ⟨k - 1, by omega⟩
    obtain ⟨k', hk', hstep⟩ := @foldGroupsInt_step _ _ _ _ f z xs[i] gby xs i gs hgs (List.getElem?_eq_getElem hlt) k
    rw [hstep, foldGroupsInt_eq (hgs.addTo f z (gby xs[i]) xs[i]) hlt (by omega), List.drop_eq_getElem_cons hlt,
      List.foldl_cons]
termination_by xs.length - i

lemma foldGroups_eq (gby : α → κ) (f : α → β → β) (xs : List α) (z : β) :
    foldGroups gby f xs z = some (xs.foldl (fun gs x => addTo f z (gby x) x gs) []) := by
  have hall := @foldGroupsInt_eq _ _ _ _ f z gby xs 0 xs.length [] .nil (Nat.zero_le _) (Nat.zero_add _).ge
  rwa [List.drop_zero] at hall

/-! ### What is in a group -/

/-- The value of a key. -/
def get (k : κ) : List (κ × β) → Option β
  | [] => none
  | (g, v) :: gs => if g = k then some v else get k gs

lemma get_eq_none {k : κ} {gs : List (κ × β)} (h : ∀ p ∈ gs, p.1 ≠ k) : get k gs = none := by
  induction gs with
  | nil => rfl
  | cons p gs ih =>
    obtain ⟨g, v⟩ := p
    rw [List.forall_mem_cons] at h
    rw [get, if_neg h.1, ih h.2]

lemma get_eq_none_of_lt {k g : κ} {v : β} {gs : List (κ × β)} (h : Ascending ((g, v) :: gs)) (hk : k < g) :
    get k ((g, v) :: gs) = none := by
  refine get_eq_none fun p hp => ?_
  rcases List.mem_cons.mp hp with rfl | hp
  · exact hk.ne'
  · exact (hk.trans ((List.pairwise_cons.mp h).1 p hp)).ne'

lemma mem_of_get {k : κ} {v : β} {gs : List (κ × β)} (h : get k gs = some v) : (k, v) ∈ gs := by
  induction gs with
  | nil => exact nomatch h
  | cons p gs ih =>
    obtain ⟨g, w⟩ := p
    rw [get] at h
    split_ifs at h with hg
    · rw [hg, Option.some.inj h]
      exact List.mem_cons_self
    · exact List.mem_cons_of_mem _ (ih h)

lemma Ascending.get_of_mem {k : κ} {v : β} {gs : List (κ × β)} (h : Ascending gs) (hm : (k, v) ∈ gs) :
    get k gs = some v := by
  induction gs with
  | nil => exact absurd hm List.not_mem_nil
  | cons p gs ih =>
    obtain ⟨g, w⟩ := p
    obtain ⟨hg, hgs⟩ := List.pairwise_cons.mp h
    rw [get]
    rcases List.mem_cons.mp hm with heq | hm
    · cases heq
      rw [if_pos rfl]
    · rw [if_neg (hg _ hm).ne, ih hgs hm]

/-- Only the group of the element's key changes. -/
lemma Ascending.get_addTo {gs : List (κ × β)} (h : Ascending gs) (k : κ) :
    get k (Boot.addTo f z g x gs) = if g = k then some (f x ((get g gs).getD z)) else get k gs := by
  induction gs with
  | nil =>
    rw [Boot.addTo, get]
    rfl
  | cons p gs ih =>
    obtain ⟨j, v⟩ := p
    obtain ⟨hj, hgs⟩ := List.pairwise_cons.mp h
    rw [Boot.addTo]
    by_cases hlt : j < g
    · rw [if_pos hlt, get, ih hgs, get, get, if_neg hlt.ne]
      split_ifs with hjk hgk
      · exact absurd (hgk.trans hjk.symm) hlt.ne'
      · rfl
      · rfl
      · rfl
    · rw [if_neg hlt]
      by_cases heq : j = g
      · subst heq
        rw [if_pos rfl, get, get, get, if_pos rfl]
        split_ifs <;> rfl
      · have hgj : g < j := lt_of_le_of_ne (not_lt.mp hlt) (Ne.symm heq)
        rw [if_neg heq, get, get_eq_none_of_lt h hgj]
        rfl

/-- The groups after all elements of an array. -/
def groups (gby : α → κ) (f : α → β → β) (z : β) (xs : List α) (gs : List (κ × β)) : List (κ × β) :=
  xs.foldl (fun gs x => addTo f z (gby x) x gs) gs

lemma Ascending.groups {gs : List (κ × β)} (h : Ascending gs) (gby : α → κ) (f : α → β → β) (z : β) (xs : List α) :
    Ascending (groups gby f z xs gs) :=
  List.foldlRecOn xs _ h fun _ h x _ => h.addTo f z (gby x) x

/-- The value of a key comes from the elements with that key. -/
lemma Ascending.get_groups {gs : List (κ × β)} (h : Ascending gs) (gby : α → κ) (f : α → β → β) (z : β)
    (xs : List α) (k : κ) : get k (Boot.groups gby f z xs gs) =
      (xs.filter fun x => gby x = k).foldl (fun o x => some (f x (o.getD z))) (get k gs) := by
  induction xs generalizing gs with
  | nil => rfl
  | cons x xs ih =>
    rw [Boot.groups, List.foldl_cons, ← Boot.groups, ih (h.addTo f z (gby x) x), h.get_addTo]
    by_cases hk : gby x = k
    · rw [if_pos hk, List.filter_cons_of_pos (p := fun x => decide (gby x = k)) (decide_eq_true hk), List.foldl_cons,
        hk]
    · rw [if_neg hk, List.filter_cons_of_neg (p := fun x => decide (gby x = k)) (by rwa [decide_eq_true_iff])]

lemma foldl_some (f : α → β → β) (z : β) (xs : List α) (v : β) :
    xs.foldl (fun o x => some (f x (o.getD z))) (some v) = some (xs.foldl (fun v x => f x v) v) := by
  induction xs generalizing v with
  | nil => rfl
  | cons x xs ih => exact ih (f x v)

/-- Each key that occurs has one value, which comes from the elements with that key. -/
lemma get_groups_nil (gby : α → κ) (f : α → β → β) (z : β) (xs : List α) (k : κ) :
    get k (groups gby f z xs []) =
      if ∃ x ∈ xs, gby x = k then some ((xs.filter fun x => gby x = k).foldl (fun v x => f x v) z) else none := by
  have hnil : Ascending ([] : List (κ × β)) := .nil
  rw [hnil.get_groups]
  cases hxs : xs.filter fun x => gby x = k with
  | nil =>
    rw [if_neg]
    · rfl
    · rintro ⟨x, hx, hk⟩
      exact List.filter_eq_nil_iff.mp hxs x hx (decide_eq_true hk)
  | cons y ys =>
    have hy : y ∈ xs.filter fun x => gby x = k := hxs ▸ List.mem_cons_self
    rw [if_pos ⟨y, (List.mem_filter.mp hy).1, of_decide_eq_true (List.mem_filter.mp hy).2⟩]
    exact foldl_some f z ys (f y z)

lemma foldl_cons_perm (xs ys : List α) : (xs.foldl (fun v x => x :: v) ys).Perm (xs ++ ys) := by
  induction xs generalizing ys with
  | nil => exact .refl ys
  | cons x xs ih => exact (ih (x :: ys)).trans List.perm_middle

/-- The groups of what is kept of the values are what is kept of the groups. -/
lemma groups_map {γ : Type*} {f : α → β → β} {z : β} {f' : α → γ → γ} {z' : γ} {h : β → γ} (hz : h z = z')
    (hf : ∀ x v, h (f x v) = f' x (h v)) (gby : α → κ) (xs : List α) (gs : List (κ × β)) :
    groups gby f' z' xs (gs.map fun p => (p.1, h p.2)) = (groups gby f z xs gs).map fun p => (p.1, h p.2) := by
  have hadd (g : κ) (x : α) (gs : List (κ × β)) :
      addTo f' z' g x (gs.map fun p => (p.1, h p.2)) = (addTo f z g x gs).map fun p => (p.1, h p.2) := by
    induction gs with
    | nil => rw [addTo, List.map_singleton, hf, hz, List.map_nil, addTo]
    | cons p gs ih =>
      obtain ⟨k, v⟩ := p
      rw [List.map_cons, addTo, addTo, ih]
      split_ifs
      · rfl
      · rw [List.map_cons, hf]
      · rw [List.map_cons, List.map_cons, hf, hz]
  induction xs generalizing gs with
  | nil => rfl
  | cons x xs ih =>
    rw [groups, List.foldl_cons, hadd]
    exact ih _

/-- The elements by their keys. -/
structure IsGrouping (gby : α → κ) (xs : List α) (gs : List (κ × List α)) : Prop where
  ascending : Ascending gs
  mem_keys (k : κ) : (∃ vs, (k, vs) ∈ gs) ↔ ∃ x ∈ xs, gby x = k
  perm {k : κ} {vs : List α} (h : (k, vs) ∈ gs) : vs.Perm (xs.filter fun x => gby x = k)

lemma mem_groups {gby : α → κ} {f : α → β → β} {z : β} {xs : List α} {k : κ} {v : β} :
    (k, v) ∈ groups gby f z xs [] ↔
      (∃ x ∈ xs, gby x = k) ∧ v = (xs.filter fun x => gby x = k).foldl (fun v x => f x v) z := by
  have hasc : Ascending (groups gby f z xs []) := Ascending.groups .nil gby f z xs
  have hget := get_groups_nil gby f z xs k
  constructor
  · intro h
    rw [hasc.get_of_mem h] at hget
    split_ifs at hget with hx
    · exact ⟨hx, Option.some.inj hget⟩
  · rintro ⟨hx, rfl⟩
    rw [if_pos hx] at hget
    exact mem_of_get hget

lemma isGrouping_groups (gby : α → κ) (xs : List α) : IsGrouping gby xs (groups gby List.cons [] xs []) where
  ascending := Ascending.groups .nil gby List.cons [] xs
  mem_keys k := by
    simp only [mem_groups]
    exact ⟨fun ⟨_, h, _⟩ => h, fun h => ⟨_, h, rfl⟩⟩
  perm {k vs} h := by
    have hperm := foldl_cons_perm (xs.filter fun x => gby x = k) []
    rw [List.append_nil] at hperm
    exact (mem_groups.mp h).2 ▸ hperm

lemma groupBy_eq (gby : α → κ) (xs : List α) : groupBy gby xs = some (groups gby List.cons [] xs []) := by
  have hmap : (groups gby List.cons [] xs []).map (fun p => (toArray p.2).map fun vs => (p.1, vs)) =
      (groups gby List.cons [] xs []).map some :=
    List.map_congr_left fun p _ => by rw [toArray_eq, Option.map_some]
  rw [groupBy, foldGroups_eq, Option.bind_some]
  exact fmap_eq hmap

lemma countBy_eq (gby : α → κ) (xs : List α) :
    countBy gby xs = some ((groups gby List.cons [] xs []).map fun g => (g.1, g.2.length)) := by
  have hmap := @groups_map α (List α) κ _ ℕ List.cons [] (fun _ c => c + 1) 0 List.length rfl (fun _ _ => rfl) gby xs []
  rw [countBy, foldGroups_eq, ← hmap]
  rfl

lemma unique_eq (xs : List κ) :
    unique xs = some ((groups id (fun _ _ => ()) () xs []).map Prod.fst) := by
  rw [unique, foldGroups_eq, Option.map_some]
  rfl

lemma mem_unique {xs : List κ} {k : κ} :
    k ∈ (groups id (fun _ _ => ()) () xs []).map Prod.fst ↔ k ∈ xs := by
  rw [List.mem_map]
  constructor
  · rintro ⟨⟨g, u⟩, hg, rfl⟩
    obtain ⟨⟨x, hx, hxg⟩, _⟩ := mem_groups.mp hg
    exact hxg ▸ hx
  · exact fun hk => ⟨(k, ()), mem_groups.mpr ⟨⟨k, hk, rfl⟩, rfl⟩, rfl⟩

end Ordered

end Hobbes.Boot
