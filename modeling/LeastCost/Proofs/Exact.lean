import Mathlib.Algebra.BigOperators.Group.List.Basic
import Mathlib.Algebra.Order.Field.Rat
import Mathlib.Tactic.Linarith
import LeastCost.Scalar.Exact

/-! # Exact arithmetic

Over the rationals the operations of a scalar type are the usual ones: sums do not depend on a
start at negative zero, and a tolerance of zero cleans nothing.
-/

namespace LeastCost.Scalar

variable (x y : Rat) (xs : List Rat)

@[simp] theorem isFinite_rat : Scalar.isFinite x = true := rfl

@[simp] theorem isBounded_rat : Scalar.isBounded x = true := rfl

@[simp] theorem isZero_rat_iff : Scalar.isZero x = true ↔ x = 0 := by
  simp only [Scalar.isZero, Bool.and_eq_true, decide_eq_true_eq]
  exact ⟨fun h => le_antisymm h.1 h.2, fun h => ⟨h.le, h.ge⟩⟩

@[simp] theorem abs_rat : Scalar.abs x = |x| := by
  unfold Scalar.abs
  split
  · next h => exact (abs_of_neg h).symm
  · next h => exact (abs_of_nonneg (not_lt.mp h)).symm

@[simp] theorem max_rat : Scalar.max x y = x ⊔ y := by
  unfold Scalar.max
  split
  · next h => exact (max_eq_left h).symm
  · next h => rw [if_pos le_rfl, max_eq_right (not_le.mp h).le]

@[simp] theorem min_rat : Scalar.min x y = x ⊓ y := by
  unfold Scalar.min
  split
  · next h => exact (min_eq_left h).symm
  · next h => rw [if_pos le_rfl, min_eq_right (not_le.mp h).le]

@[simp] theorem sum_rat : Scalar.sum xs = xs.sum := by
  simp [Scalar.sum, List.sum_eq_foldl]

theorem dot_rat (ys : List Rat) : Scalar.dot xs ys = (xs.zipWith (· * ·) ys).sum := by
  simp [Scalar.dot]

@[simp] theorem clean_zero : Scalar.clean 0 x = x := by
  unfold Scalar.clean
  split
  · next h => exact (abs_nonpos_iff.mp (by simpa using h)).symm
  · rfl

theorem clean_of_zero (tolerance : Rat) : Scalar.clean tolerance 0 = 0 := by
  unfold Scalar.clean
  split
  · rfl
  · rfl

theorem abs_clean_sub_le {tolerance : Rat} (ht : 0 ≤ tolerance) :
    |Scalar.clean tolerance x - x| ≤ tolerance := by
  unfold Scalar.clean
  split
  · next h => simpa using h
  · simpa using ht

end LeastCost.Scalar
