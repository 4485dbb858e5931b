import Mathlib.Algebra.BigOperators.Group.Finset.Basic
import Mathlib.Algebra.Order.BigOperators.Group.Finset
import Mathlib.Tactic.Ring
import LeastCost.Hungarian.Labels
import LeastCost.Proofs.Exact

/-! # Feasible labels

Labels are feasible when no reduced cost is negative, as they are after the reduction. The sum
of feasible labels is a lower bound for the cost of every permutation, and the cost of a
permutation over tight cells.
-/

namespace LeastCost.Hungarian

open scoped BigOperators

variable {n : Nat} {costs : Grid Rat n n} {l : Labels Rat n}

/-- No reduced cost is negative. -/
def Labels.Feasible (l : Labels Rat n) (costs : Grid Rat n n) : Prop :=
  ∀ i j, 0 ≤ l.reduced costs i j

/-- The reduced cost of the cell is zero. -/
def Labels.Tight (l : Labels Rat n) (costs : Grid Rat n n) (i j : Fin n) : Prop :=
  l.reduced costs i j = 0

theorem foldl_min_le (f : Fin n → Rat) (ks : List (Fin n)) (least : Rat) :
    ks.foldl (fun least k => Scalar.min least (f k)) least ≤ least ∧
      ∀ k ∈ ks, ks.foldl (fun least k => Scalar.min least (f k)) least ≤ f k := by
  induction ks generalizing least with
  | nil => simp
  | cons k ks ih =>
    obtain ⟨hle, hall⟩ := ih (Scalar.min least (f k))
    rw [Scalar.min_rat] at hle
    rw [List.foldl_cons, Scalar.min_rat]
    rw [Scalar.min_rat] at hall
    refine ⟨hle.trans inf_le_left, ?_⟩
    intro k' hk'
    rcases List.mem_cons.mp hk' with rfl | hk'
    · exact hle.trans inf_le_right
    · exact hall k' hk'

theorem leastOver_le (f : Fin n → Rat) (start k : Fin n) : leastOver f start ≤ f k :=
  (foldl_min_le f (List.finRange n) (f start)).2 k (List.mem_finRange k)

theorem Labels.reduction_feasible (costs : Grid Rat n n) :
    (Labels.reduction costs).Feasible costs := by
  intro i j
  have h := leastOver_le (fun i => costs i j - (Labels.reduction costs).row i) j i
  have hc : (Labels.reduction costs).column j =
      leastOver (fun i => costs i j - (Labels.reduction costs).row i) j := by
    simp [Labels.reduction]
  rw [← hc] at h
  unfold Labels.reduced
  linarith

theorem Labels.isFinite_rat (l : Labels Rat n) : l.isFinite = true := by
  simp [Labels.isFinite]

theorem Labels.reduce_eq_ok (costs : Grid Rat n n) :
    Labels.reduce costs = .ok (Labels.reduction costs) := by
  simp only [Labels.reduce, Labels.isFinite_rat, if_true]

theorem Labels.sum_reduced (l : Labels Rat n) (costs : Grid Rat n n)
    (σ : Equiv.Perm (Fin n)) :
    ∑ i, costs i (σ i) =
      ∑ i, l.reduced costs i (σ i) + (∑ i, l.row i + ∑ j, l.column j) := by
  rw [← Equiv.sum_comp σ fun j => l.column j, ← Finset.sum_add_distrib, ← Finset.sum_add_distrib]
  refine Finset.sum_congr rfl fun i _ => ?_
  unfold Labels.reduced
  ring

theorem Labels.Feasible.sum_tight_le (h : l.Feasible costs) {σ : Equiv.Perm (Fin n)}
    (ht : ∀ i, l.Tight costs i (σ i)) (τ : Equiv.Perm (Fin n)) :
    ∑ i, costs i (σ i) ≤ ∑ i, costs i (τ i) := by
  rw [l.sum_reduced costs σ, l.sum_reduced costs τ, Finset.sum_eq_zero fun i _ => ht i]
  have hτ : 0 ≤ ∑ i, l.reduced costs i (τ i) := Finset.sum_nonneg fun i _ => h i (τ i)
  linarith

end LeastCost.Hungarian
