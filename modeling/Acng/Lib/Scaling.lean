import Mathlib.Algebra.Order.Group.Nat
import Mathlib.Tactic.Ring

namespace Acng.Lib

/-- A number up to `top`, divided so that it stays below `most`. -/
def scaleDown (top most n : Nat) : Nat := n / (top / most + 1)

variable {top most n : Nat}

theorem scaleDown_lt (hmost : 0 < most) (hn : n ≤ top) : scaleDown top most n < most := by
  rw [scaleDown, Nat.div_lt_iff_lt_mul (Nat.succ_pos _)]
  exact Nat.lt_of_le_of_lt hn (Nat.lt_mul_div_succ top hmost)

theorem scaleDown_le_of_le {k : Nat} (hk : 0 < k) (hle : k ≤ most) : scaleDown top k n ≤ scaleDown top most n := by
  refine Nat.div_le_div_left ?_ (Nat.succ_pos _)
  exact Nat.succ_le_succ (Nat.div_le_div_left hle hk)

/-- The bound is reached, as long as the divisions lose less than one. -/
theorem scaleDown_top {k : Nat} (hfit : (k + 1) * k ≤ top) : scaleDown top (k + 1) top = k := by
  refine Nat.le_antisymm (Nat.lt_succ_iff.mp (scaleDown_lt (Nat.succ_pos k) (Nat.le_refl top))) ?_
  rw [scaleDown, Nat.le_div_iff_mul_le (Nat.succ_pos _)]
  have hk : k ≤ top / (k + 1) := by rwa [Nat.le_div_iff_mul_le (Nat.succ_pos k), Nat.mul_comm]
  have hquot : (k + 1) * (top / (k + 1)) ≤ top := Nat.mul_div_le top (k + 1)
  calc k * (top / (k + 1) + 1) = k * (top / (k + 1)) + k := by ring
    _ ≤ k * (top / (k + 1)) + top / (k + 1) := Nat.add_le_add_left hk _
    _ = (k + 1) * (top / (k + 1)) := by ring
    _ ≤ top := hquot

/-- Which numbers a factor brings to the bound. -/
theorem mul_scaleDown_lt_iff {bound : Nat} (w : Nat) (hbound : 0 < bound) :
    w * scaleDown top most n < bound ↔ w = 0 ∨ n < ((bound - 1) / w + 1) * (top / most + 1) := by
  obtain rfl | hw := Nat.eq_zero_or_pos w
  · simpa using hbound
  · rw [or_iff_right (Nat.ne_of_gt hw), ← Nat.div_lt_iff_lt_mul (Nat.succ_pos _), ← scaleDown, Nat.lt_succ_iff,
      Nat.le_div_iff_mul_le hw, Nat.mul_comm]
    omega

/-- The products of what is scaled for `most` stay below a square exactly up to its root. -/
theorem mul_scaleDown_lt_sq_iff {k : Nat} (hmost : 0 < most) (hfit : (k + 1) * k ≤ top) :
    (∀ n ≤ top, most * scaleDown top most n < k ^ 2) ↔ most ≤ k := by
  constructor
  · intro hlt
    by_contra hgt
    have hle : k + 1 ≤ most := Nat.lt_of_not_le hgt
    have hk : k ≤ scaleDown top most top := by
      rw [← scaleDown_top hfit]
      exact scaleDown_le_of_le (Nat.succ_pos k) hle
    have hsq : k ^ 2 ≤ most * scaleDown top most top := by
      rw [Nat.pow_two]
      exact Nat.mul_le_mul (Nat.le_of_succ_le hle) hk
    exact absurd (hlt top (Nat.le_refl top)) (Nat.not_lt.mpr hsq)
  · intro hle n hn
    calc most * scaleDown top most n < most * most := Nat.mul_lt_mul_of_pos_left (scaleDown_lt hmost hn) hmost
      _ ≤ k * k := Nat.mul_le_mul hle hle
      _ = k ^ 2 := (Nat.pow_two k).symm

end Acng.Lib
