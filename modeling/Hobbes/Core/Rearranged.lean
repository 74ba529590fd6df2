import Mathlib.Algebra.Order.Group.Nat
import Mathlib.Data.List.Perm.Basic
import Mathlib.Tactic.Common

/-!
# Parts of a list in another order
-/

namespace Core

variable {α : Type*}

/-- The elements from `b` up to `e` are in some order, and the others stay where they are. -/
structure RearrangedOn (b e : ℕ) (xs ys : List α) : Prop where
  perm : ys.Perm xs
  inside {k : ℕ} (hb : b ≤ k) (he : k < e) : ∃ l, b ≤ l ∧ l < e ∧ ys[k]? = xs[l]?
  outside {k : ℕ} (h : k < b ∨ e ≤ k) : ys[k]? = xs[k]?

namespace RearrangedOn

variable {b e : ℕ} {xs ys zs : List α}

lemma refl (b e : ℕ) (xs : List α) : RearrangedOn b e xs xs where
  perm := .refl xs
  inside hb he := ⟨_, hb, he, rfl⟩
  outside _ := rfl

lemma trans (h : RearrangedOn b e xs ys) (h' : RearrangedOn b e ys zs) : RearrangedOn b e xs zs where
  perm := h'.perm.trans h.perm
  inside hb he := by
    obtain ⟨l, hbl, hle, hl⟩ := h'.inside hb he
    obtain ⟨m, hbm, hme, hm⟩ := h.inside hbl hle
    exact ⟨m, hbm, hme, hl.trans hm⟩
  outside hk := (h'.outside hk).trans (h.outside hk)

lemma mono {b' e' : ℕ} (h : RearrangedOn b e xs ys) (hb : b' ≤ b) (he : e ≤ e') : RearrangedOn b' e' xs ys where
  perm := h.perm
  inside {k} hbk hke := by
    by_cases hk : b ≤ k ∧ k < e
    · obtain ⟨l, hbl, hle, hl⟩ := h.inside hk.1 hk.2
      exact ⟨l, hb.trans hbl, hle.trans_le he, hl⟩
    · exact ⟨k, hbk, hke, h.outside (by omega)⟩
  outside hk := h.outside (by omega)

/-- What holds of all elements of a part still holds of them in another order. -/
lemma forall_inside {P : α → Prop} {b' e' : ℕ} (h : RearrangedOn b e xs ys) (hb : b' ≤ b) (he : e ≤ e')
    (hP : ∀ k x, b' ≤ k → k < e' → xs[k]? = some x → P x) :
    ∀ k x, b' ≤ k → k < e' → ys[k]? = some x → P x := by
  intro k x hbk hke hx
  obtain ⟨l, hbl, hle, hl⟩ := (h.mono hb he).inside hbk hke
  exact hP l x hbl hle (hl ▸ hx)

/-- What holds of the elements of a part still holds when only others have been rearranged. -/
lemma forall_outside {P : α → Prop} {b' e' : ℕ} (h : RearrangedOn b e xs ys) (hout : e' ≤ b ∨ e ≤ b')
    (hP : ∀ k x, b' ≤ k → k < e' → xs[k]? = some x → P x) :
    ∀ k x, b' ≤ k → k < e' → ys[k]? = some x → P x := by
  intro k x hbk hke hx
  rw [h.outside (by omega)] at hx
  exact hP k x hbk hke hx

/-- Two elements change their places. -/
lemma of_swap {i j : ℕ} (hlen : ys.Perm xs) (hi : b ≤ i ∧ i < e) (hj : b ≤ j ∧ j < e)
    (h : ∀ k, ys[k]? = if k = i then xs[j]? else if k = j then xs[i]? else xs[k]?) : RearrangedOn b e xs ys where
  perm := hlen
  inside {k} hb he := by
    rw [h]
    split_ifs
    · exact ⟨j, hj.1, hj.2, rfl⟩
    · exact ⟨i, hi.1, hi.2, rfl⟩
    · exact ⟨k, hb, he, rfl⟩
  outside {k} hk := by
    rw [h, if_neg (by omega), if_neg (by omega)]

end RearrangedOn

end Core
