import Mathlib.Tactic.Common

/-!
# Rounding up

`roundUp x m` is the least multiple of `m` that is not below `x`.
-/

namespace Core

def roundUp (x m : ℕ) : ℕ := (x + m - 1) / m * m

variable {x y m a : ℕ}

lemma dvd_roundUp (x m : ℕ) : m ∣ roundUp x m := Nat.dvd_mul_left ..

lemma le_roundUp (hm : 0 < m) : x ≤ roundUp x m := by
  have hdiv := Nat.div_add_mod (x + m - 1) m
  have hmod := Nat.mod_lt (x + m - 1) hm
  rw [Nat.mul_comm] at hdiv
  rw [roundUp]
  omega

lemma roundUp_lt (hm : 0 < m) : roundUp x m < x + m := by
  have hle := Nat.div_mul_le_self (x + m - 1) m
  rw [roundUp]
  omega

lemma roundUp_le (hm : 0 < m) (hy : m ∣ y) (hxy : x ≤ y) : roundUp x m ≤ y := by
  obtain ⟨k, rfl⟩ := hy
  have hlt : (x + m - 1) / m < k + 1 := by
    rw [Nat.div_lt_iff_lt_mul hm, Nat.succ_mul, Nat.mul_comm]
    omega
  rw [roundUp, Nat.mul_comm m]
  exact Nat.mul_le_mul_right m (Nat.le_of_lt_succ hlt)

/-- The multiples of `m` are `m` apart. -/
lemma eq_roundUp (hm : 0 < m) (hy : m ∣ y) (hxy : x ≤ y) (hlt : y < x + m) : y = roundUp x m := by
  refine Nat.le_antisymm ?_ (roundUp_le hm hy hxy)
  have hle := le_roundUp (x := x) hm
  obtain ⟨k, rfl⟩ := hy
  obtain ⟨l, hl⟩ := dvd_roundUp x m
  rw [hl] at hle ⊢
  have hkl : k < l + 1 := Nat.lt_of_mul_lt_mul_left (a := m) (by rw [Nat.mul_succ]; omega)
  exact Nat.mul_le_mul_left m (Nat.le_of_lt_succ hkl)

lemma roundUp_eq_self (hm : 0 < m) (hx : m ∣ x) : roundUp x m = x :=
  (eq_roundUp hm hx (Nat.le_refl x) (by omega)).symm

lemma roundUp_mono (hm : 0 < m) (hxy : x ≤ y) : roundUp x m ≤ roundUp y m :=
  roundUp_le hm (dvd_roundUp y m) (Nat.le_trans hxy (le_roundUp hm))

/-- Rounding up to a divisor first makes no difference. -/
lemma roundUp_roundUp (hm : 0 < m) (ha : a ∣ m) : roundUp (roundUp x a) m = roundUp x m := by
  have hpos := Nat.pos_of_dvd_of_pos ha hm
  refine Nat.le_antisymm (roundUp_le hm (dvd_roundUp x m) ?_) (roundUp_mono hm (le_roundUp hpos))
  exact roundUp_le hpos (Nat.dvd_trans ha (dvd_roundUp x m)) (le_roundUp hm)

lemma roundUp_le_roundUp (hm : 0 < m) (ha : a ∣ m) : roundUp x a ≤ roundUp x m :=
  roundUp_le (Nat.pos_of_dvd_of_pos ha hm) (Nat.dvd_trans ha (dvd_roundUp x m)) (le_roundUp hm)

/-- What rounding up to a divisor makes a multiple of `m` is what rounding up to `m` makes. -/
lemma roundUp_eq_of_dvd (hm : 0 < m) (ha : a ∣ m) (h : m ∣ roundUp x a) :
    roundUp x a = roundUp x m :=
  Nat.le_antisymm (roundUp_le_roundUp hm ha)
    (roundUp_le hm h (le_roundUp (Nat.pos_of_dvd_of_pos ha hm)))

end Core
