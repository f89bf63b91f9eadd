import Mathlib.Algebra.Order.Group.Int
import Mathlib.Algebra.Order.Ring.Int

/-- The multiple of `b` next to `v`, and the one away from zero when two of them
are, computed with a division that rounds towards zero. -/
def roundTo (b v : Int) : Int :=
  (if 0 < v then v + b / 2 else if v < 0 then v - b / 2 else v).tdiv b * b

section
variable {b : Int}

@[simp] theorem roundTo_zero : roundTo b 0 = 0 := by
  simp [roundTo]

theorem dvd_roundTo (v : Int) : b ∣ roundTo b v := Int.dvd_mul_left _ _

theorem roundTo_neg (v : Int) : roundTo b (-v) = -roundTo b v := by
  rcases Int.lt_trichotomy v 0 with below | zero | above
  · have shift : -v + b / 2 = -(v - b / 2) := by omega
    rw [roundTo, if_pos (by omega), roundTo, if_neg (by omega), if_pos below, shift, Int.neg_tdiv, Int.neg_mul]
  · rw [zero, Int.neg_zero, roundTo_zero, Int.neg_zero]
  · have shift : -v - b / 2 = -(v + b / 2) := by omega
    rw [roundTo, if_neg (by omega), if_pos (by omega), roundTo, if_pos above, shift, Int.neg_tdiv, Int.neg_mul]

variable (positive : 0 < b)
include positive

theorem roundTo_of_pos {v : Int} (above : 0 < v) : roundTo b v = (v + b / 2) / b * b := by
  rw [roundTo, if_pos above, Int.tdiv_eq_ediv_of_nonneg (by omega)]

theorem roundTo_nonneg {v : Int} (nonneg : 0 ≤ v) : 0 ≤ roundTo b v := by
  rcases Int.lt_or_eq_of_le nonneg with above | rfl
  · rw [roundTo_of_pos positive above]
    exact Int.mul_nonneg (Int.ediv_nonneg (by omega) (by omega)) (by omega)
  · rw [roundTo_zero]

/-- No more than half of `b` lies between a number and its multiple. -/
theorem natAbs_sub_roundTo_le (v : Int) : ((v - roundTo b v).natAbs : Int) ≤ b / 2 := by
  have ofPos : ∀ v : Int, 0 < v → ((v - roundTo b v).natAbs : Int) ≤ b / 2 := by
    intro v above
    have low := Int.ediv_mul_le (v + b / 2) (by omega : b ≠ 0)
    have high := Int.lt_ediv_add_one_mul_self (v + b / 2) positive
    rw [Int.add_mul, Int.one_mul] at high
    rw [roundTo_of_pos positive above]
    omega
  rcases Int.lt_trichotomy v 0 with below | rfl | above
  · have mirrored := ofPos (-v) (by omega)
    rw [roundTo_neg] at mirrored
    omega
  · simp
    omega
  · exact ofPos v above

theorem roundTo_mono {u v : Int} (order : u ≤ v) : roundTo b u ≤ roundTo b v := by
  have ofPos : ∀ u v : Int, 0 < u → u ≤ v → roundTo b u ≤ roundTo b v := by
    intro u v above order
    rw [roundTo_of_pos positive above, roundTo_of_pos positive (by omega)]
    exact Int.mul_le_mul_of_nonneg_right (Int.ediv_le_ediv positive (by omega)) (by omega)
  rcases Int.lt_trichotomy u 0 with below | rfl | above
  · rcases Int.lt_or_le v 0 with below' | nonneg
    · have mirrored := ofPos (-v) (-u) (by omega) (by omega)
      rw [roundTo_neg, roundTo_neg] at mirrored
      omega
    · have left := roundTo_nonneg positive (by omega : 0 ≤ -u)
      have right := roundTo_nonneg positive nonneg
      rw [roundTo_neg] at left
      omega
  · rw [roundTo_zero]
    exact roundTo_nonneg positive order
  · exact ofPos u v above order

end
