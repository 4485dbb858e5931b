import Mathlib.Algebra.Order.Ring.Cast
import LeastCost.Proofs.Exact
import LeastCost.Proofs.Selection

/-! # Whole numbers

Among whole numbers a tolerance below one has no effect: a whole number exceeds the tolerance
only if it exceeds zero.
-/

namespace LeastCost

variable {v w tolerance : Rat}

def Whole (v : Rat) : Prop := ∃ k : Int, v = k

namespace Whole

theorem zero : Whole 0 := ⟨0, Int.cast_zero.symm⟩

theorem of_den (h : v.den = 1) : Whole v := ⟨v.num, (Rat.coe_int_num_of_den_eq_one h).symm⟩

theorem add (hv : Whole v) (hw : Whole w) : Whole (v + w) := by
  obtain ⟨k, rfl⟩ := hv
  obtain ⟨l, rfl⟩ := hw
  exact ⟨k + l, (Int.cast_add k l).symm⟩

theorem neg (hv : Whole v) : Whole (-v) := by
  obtain ⟨k, rfl⟩ := hv
  exact ⟨-k, (Int.cast_neg k).symm⟩

theorem sub (hv : Whole v) (hw : Whole w) : Whole (v - w) := by
  rw [sub_eq_add_neg]
  exact hv.add hw.neg

theorem min (hv : Whole v) (hw : Whole w) : Whole (v ⊓ w) := by
  rcases min_choice v w with h | h
  · rwa [h]
  · rwa [h]

theorem abs (hv : Whole v) : Whole |v| := by
  rcases abs_choice v with h | h
  · rwa [h]
  · exact h ▸ hv.neg

theorem sum {vs : List Rat} (h : ∀ v ∈ vs, Whole v) : Whole vs.sum := by
  induction vs with
  | nil => exact zero
  | cons v vs ih =>
    rw [List.sum_cons]
    exact (h v List.mem_cons_self).add (ih fun w hw => h w (List.mem_cons_of_mem v hw))

theorem exists_nat (hv : Whole v) (h0 : 0 ≤ v) : ∃ k : Nat, v = k := by
  obtain ⟨k, rfl⟩ := hv
  obtain ⟨l, rfl⟩ := Int.eq_ofNat_of_zero_le (Int.cast_nonneg_iff.mp h0)
  exact ⟨l, Int.cast_natCast l⟩

section Tolerance

variable (h0 : 0 ≤ tolerance) (h1 : tolerance < 1)

include h0 h1

theorem lt_iff (hv : Whole v) : tolerance < v ↔ 0 < v := by
  refine ⟨h0.trans_lt, fun hpos => h1.trans_le ?_⟩
  obtain ⟨k, rfl⟩ := hv
  have hk : 0 < k := Int.cast_pos.mp hpos
  exact_mod_cast hk

theorem le_iff (hv : Whole v) : v ≤ tolerance ↔ v ≤ 0 := by
  rw [← not_lt, hv.lt_iff h0 h1, not_lt]

theorem lt_neg_iff (hv : Whole v) : v < -tolerance ↔ v < 0 := by
  rw [lt_neg, hv.neg.lt_iff h0 h1, neg_pos]

theorem add_lt_iff (hv : Whole v) (hw : Whole w) : v + tolerance < w ↔ v < w := by
  rw [← lt_sub_iff_add_lt', (hw.sub hv).lt_iff h0 h1, sub_pos]

theorem clean_eq (hv : Whole v) : Scalar.clean tolerance v = v := by
  unfold Scalar.clean
  rw [Scalar.abs_rat]
  split
  · next h => exact (abs_nonpos_iff.mp ((hv.abs.le_iff h0 h1).mp h)).symm
  · rfl

end Tolerance

end Whole

end LeastCost
