import Mathlib.Algebra.BigOperators.Group.Finset.Basic
import Mathlib.Data.Setoid.Basic
import Mathlib.Order.CompletePartialOrder
import Mathlib.Order.ConditionallyCompleteLattice.Basic
import Mathlib.Tactic.Common

/-!
# Forests of links

Every element is linked to another one or to itself. A root function sends each element to the end of its links, and
two elements are in one class if they have the same root. Ranks increase along links, so that there is an end.
-/

namespace Core

variable {K : Type*}

/-! ### Pairs that have been joined -/

/-- The least equivalence that has these pairs. -/
def joined (l : List (K × K)) : Setoid K := Relation.EqvGen.setoid fun a b => (a, b) ∈ l

lemma joined_le_iff {l : List (K × K)} {s : Setoid K} : joined l ≤ s ↔ ∀ a b, (a, b) ∈ l → s a b := by
  constructor
  · intro h a b hab
    exact h (Relation.EqvGen.rel a b hab)
  · exact Setoid.eqvGen_le

lemma joined_of_mem {l : List (K × K)} {a b : K} (h : (a, b) ∈ l) : joined l a b := Relation.EqvGen.rel a b h

@[simp] lemma joined_nil : joined ([] : List (K × K)) = ⊥ := by
  rw [eq_bot_iff, joined_le_iff]
  intro a b h
  cases h

lemma joined_append (l l' : List (K × K)) : joined (l ++ l') = joined l ⊔ joined l' := by
  apply le_antisymm
  · rw [joined_le_iff]
    intro a b h
    rcases List.mem_append.mp h with h | h
    · exact Setoid.le_def.mp le_sup_left (joined_of_mem h)
    · exact Setoid.le_def.mp le_sup_right (joined_of_mem h)
  · refine sup_le ?_ ?_ <;> rw [joined_le_iff] <;> intro a b h
    · exact joined_of_mem (List.mem_append_left l' h)
    · exact joined_of_mem (List.mem_append_right l h)

lemma joined_pair_comm (a b : K) : joined [(a, b)] = joined [(b, a)] := by
  apply le_antisymm <;> rw [joined_le_iff] <;> intro x y h <;>
    obtain ⟨rfl, rfl⟩ := Prod.mk.inj (List.mem_singleton.mp h) <;>
    exact Setoid.symm' _ (joined_of_mem List.mem_cons_self)

/-- Joining all elements to where a function sends them joins what it identifies. -/
lemma joined_map_eq_ker {f : K → K} (hf : ∀ k, f (f k) = f k) {ks : List K} (hks : ∀ k ∉ ks, f k = k) :
    joined (ks.map fun k => (k, f k)) = Setoid.ker f := by
  apply le_antisymm
  · rw [joined_le_iff]
    intro a b h
    obtain ⟨k, -, heq⟩ := List.mem_map.mp h
    cases heq
    exact (hf a).symm
  · have hto : ∀ k, joined (ks.map fun k => (k, f k)) k (f k) := by
      intro k
      by_cases hk : k ∈ ks
      · exact joined_of_mem (List.mem_map_of_mem hk)
      · rw [hks k hk]
    intro a b (hab : f a = f b)
    exact Setoid.trans' _ (hto a) (hab ▸ Setoid.symm' _ (hto b))

lemma ker_sup_joined_of_eq (root : K → K) {x y : K} (h : root x = root y) :
    Setoid.ker root = Setoid.ker root ⊔ joined [(x, y)] := by
  rw [eq_comm, sup_eq_left, joined_le_iff]
  intro u v huv
  obtain ⟨rfl, rfl⟩ := Prod.mk.inj (List.mem_singleton.mp huv)
  exact h

/-! ### Forests -/

structure Forest (parent root : K → K) (rank : K → ℕ) : Prop where
  root_parent : ∀ k, root (parent k) = root k
  parent_root : ∀ k, parent (root k) = root k
  root_self : ∀ k, parent k = k → root k = k
  climbs : ∀ k, parent k ≠ k → rank k < rank (parent k)
  climbs_root : ∀ k, root k ≠ k → rank k < rank (root k)

namespace Forest

variable {parent root : K → K} {rank : K → ℕ}

lemma self (rank : K → ℕ) : Forest (fun k : K => k) (fun k => k) rank where
  root_parent _ := rfl
  parent_root _ := rfl
  root_self _ _ := rfl
  climbs _ h := absurd rfl h
  climbs_root _ h := absurd rfl h

lemma root_root (h : Forest parent root rank) (k : K) : root (root k) = root k :=
  h.root_self (root k) (h.parent_root k)

/-- Links that lead to the root at once keep all roots. -/
lemma compress (h : Forest parent root rank) {parent' : K → K} (hp : ∀ k, parent' k = parent k ∨ parent' k = root k) :
    Forest parent' root rank where
  root_parent k := by
    rcases hp k with hk | hk <;> rw [hk]
    · exact h.root_parent k
    · exact h.root_root k
  parent_root k := by
    rcases hp (root k) with hk | hk <;> rw [hk]
    · exact h.parent_root k
    · exact h.root_root k
  root_self k hself := by
    rcases hp k with hk | hk <;> rw [hk] at hself
    · exact h.root_self k hself
    · exact hself
  climbs k hne := by
    rcases hp k with hk | hk <;> rw [hk] at hne ⊢
    · exact h.climbs k hne
    · exact h.climbs_root k hne
  climbs_root := h.climbs_root

variable [DecidableEq K]

/-- The roots after the root `a` has been linked to `b`. -/
def relink (root : K → K) (a b : K) (k : K) : K := if root k = a then b else root k

lemma relink_eq_iff (root : K → K) {a b u v : K} :
    relink root a b u = relink root a b v ↔ root u = root v ∨ root u = a ∧ root v = b ∨ root u = b ∧ root v = a := by
  unfold relink
  split_ifs with hu hv hv
  · exact iff_of_true rfl (.inl (hu.trans hv.symm))
  · refine ⟨fun h => .inr (.inl ⟨hu, h.symm⟩), ?_⟩
    rintro (h | ⟨-, h⟩ | ⟨-, h⟩)
    · exact absurd (h.symm.trans hu) hv
    · exact h.symm
    · exact absurd h hv
  · refine ⟨fun h => .inr (.inr ⟨h, hv⟩), ?_⟩
    rintro (h | ⟨h, -⟩ | ⟨h, -⟩)
    · exact absurd (h.trans hv) hu
    · exact absurd h hu
    · exact h
  · refine ⟨.inl, ?_⟩
    rintro (h | ⟨h, -⟩ | ⟨-, h⟩)
    · exact h
    · exact absurd h hu
    · exact absurd h hv

/-- One root is linked to another one, whose rank is made large enough. -/
lemma link (h : Forest parent root rank) {a b : K} (ha : parent a = a) (hb : parent b = b) (hab : a ≠ b)
    {rank' : K → ℕ} (hlt : rank' a < rank' b) (hle : rank b ≤ rank' b) (hrank : ∀ k ≠ b, rank' k = rank k) :
    Forest (Function.update parent a b) (relink root a b) rank' := by
  have hmono : ∀ k, rank k ≤ rank' k := by
    intro k
    rcases eq_or_ne k b with rfl | hk
    · exact hle
    · exact (hrank k hk).ge
  have hrootb : root b = b := h.root_self b hb
  have hne : ∀ k, k ≠ a → Function.update parent a b k = parent k := fun k hk => Function.update_of_ne hk b parent
  have hbb : Function.update parent a b b = b := by rw [hne b hab.symm, hb]
  constructor
  · intro k
    rcases eq_or_ne k a with rfl | hk
    · rw [Function.update_self, relink, relink, hrootb, if_neg hab.symm]
      rw [if_pos (h.root_self k ha)]
    · rw [hne k hk, relink, relink, h.root_parent]
  · intro k
    unfold relink
    split_ifs with hk
    · exact hbb
    · rw [hne _ hk, h.parent_root]
  · intro k hself
    have hk : k ≠ a := by
      rintro rfl
      rw [Function.update_self] at hself
      exact hab hself.symm
    rw [hne k hk] at hself
    rw [relink, h.root_self k hself, if_neg hk]
  · intro k hself
    rcases eq_or_ne k a with rfl | hk
    · rwa [Function.update_self]
    · rw [hne k hk] at hself ⊢
      have hkb : k ≠ b := by
        rintro rfl
        exact hself hb
      rw [hrank k hkb]
      exact (h.climbs k hself).trans_le (hmono _)
  · intro k hself
    unfold relink at hself ⊢
    split_ifs at hself ⊢ with hk
    · refine lt_of_le_of_lt ?_ hlt
      rw [hrank k (Ne.symm hself), hrank a hab]
      rcases eq_or_ne (root k) k with heq | hne
      · rw [← hk, heq]
      · exact (hk ▸ h.climbs_root k hne).le
    · have hkb : k ≠ b := by
        rintro rfl
        exact hself hrootb
      rw [hrank k hkb]
      exact (h.climbs_root k hself).trans_le (hmono _)

/-- Linking the roots of two elements joins the two. -/
lemma ker_relink (root : K → K) {a b x y : K} (hx : root x = a) (hy : root y = b) :
    Setoid.ker (relink root a b) = Setoid.ker root ⊔ joined [(x, y)] := by
  apply le_antisymm
  · have hstep : ∀ k, (Setoid.ker root ⊔ joined [(x, y)]) k (if root k = a then y else k) := by
      intro k
      split_ifs with hk
      · exact Setoid.trans' _ (Setoid.le_def.mp le_sup_left (hk.trans hx.symm))
          (Setoid.le_def.mp le_sup_right (joined_of_mem List.mem_cons_self))
      · exact Setoid.refl' _ k
    have hend : ∀ k, relink root a b k = root (if root k = a then y else k) := by
      intro k
      unfold relink
      split_ifs
      · exact hy.symm
      · rfl
    intro u v (huv : relink root a b u = relink root a b v)
    rw [hend, hend] at huv
    exact Setoid.trans' _ (Setoid.trans' _ (hstep u) (Setoid.le_def.mp le_sup_left huv)) (Setoid.symm' _ (hstep v))
  · refine sup_le ?_ ?_
    · intro u v (huv : root u = root v)
      rw [Setoid.ker_def, relink, relink, huv]
    · rw [joined_le_iff]
      intro u v huv
      obtain ⟨rfl, rfl⟩ := Prod.mk.inj (List.mem_singleton.mp huv)
      rw [Setoid.ker_def, relink, relink, if_pos hx, hy]
      split_ifs <;> rfl

/-- One class less. -/
lemma card_image_relink (root : K → K) {S : Finset K} {a b x y : K} (hx : root x = a) (hy : root y = b)
    (hxS : x ∈ S) (hyS : y ∈ S) (hab : a ≠ b) : (S.image (relink root a b)).card + 1 = (S.image root).card := by
  have herase : S.image (relink root a b) = (S.image root).erase a := by
    ext r
    simp only [Finset.mem_image, Finset.mem_erase, relink]
    constructor
    · rintro ⟨k, hk, rfl⟩
      split_ifs with hka
      · exact ⟨hab.symm, y, hyS, hy⟩
      · exact ⟨hka, k, hk, rfl⟩
    · rintro ⟨hr, k, hk, rfl⟩
      exact ⟨k, hk, if_neg hr⟩
  rw [herase, Finset.card_erase_add_one (Finset.mem_image.mpr ⟨x, hxS, hx⟩)]

/-- A class that another one is linked to is the union of the two. -/
lemma sum_relink {M : Type*} [AddCommMonoid M] (root : K → K) (S : Finset K) (f : K → M) {a b : K} (hab : a ≠ b) :
    ∑ k ∈ S with relink root a b k = b, f k = ∑ k ∈ S with root k = b, f k + ∑ k ∈ S with root k = a, f k := by
  have hor : ∀ k, relink root a b k = b ↔ root k = b ∨ root k = a := by
    intro k
    unfold relink
    split_ifs with hk <;> simp [hk]
  simp only [hor]
  rw [Finset.filter_or, Finset.sum_union]
  exact Finset.disjoint_filter.mpr fun k _ hb ha => hab (ha.symm.trans hb)

lemma sum_relink_of_ne {M : Type*} [AddCommMonoid M] (root : K → K) (S : Finset K) (f : K → M) {a b r : K}
    (hra : r ≠ a) (hrb : r ≠ b) : ∑ k ∈ S with relink root a b k = r, f k = ∑ k ∈ S with root k = r, f k := by
  refine Finset.sum_congr (Finset.filter_congr fun k _ => ?_) fun _ _ => rfl
  unfold relink
  split_ifs with hk
  · exact iff_of_false hrb.symm fun h => hra (h.symm.trans hk)
  · rfl

end Forest

end Core
