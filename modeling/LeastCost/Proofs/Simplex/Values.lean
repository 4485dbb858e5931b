import Mathlib.Algebra.Order.Ring.Abs
import LeastCost.Proofs.Simplex.Optimality
import LeastCost.Proofs.Simplex.Tolerance

/-! # Optimal values within a tolerance

The value of an optimum is the objective of the last basic solution, up to the tolerance. No
feasible point is better by more than the tolerance for each unit of its variables and its slacks.
The point of the optimum is the same basic solution with small values taken for zero, so that its
own objective misses the value by what these variables cost.
-/

namespace LeastCost

/-- How much better the first value is than the second one. -/
def Direction.advantage : Direction → Rat → Rat → Rat
  | .minimize, v, w => w - v
  | .maximize, v, w => v - w

namespace Simplex

open LinearProgram (Solution)
open scoped BigOperators

variable {p : LinearProgram Rat} {s : Settings Rat} {o : Solution Rat} {u : Tableau Rat}
  {tolerance : Rat} {x : List Rat}

theorem advantage_eq (d : Direction) (v w : Rat) :
    d.advantage v w = signed d w - signed d v := by
  cases d with
  | minimize => rfl
  | maximize => exact (neg_sub_neg w v).symm

theorem signed_sub_le_abs (d : Direction) (v w : Rat) : signed d v - signed d w ≤ |v - w| := by
  cases d with
  | minimize => exact le_abs_self _
  | maximize =>
    have hle := neg_le_abs (v - w)
    simp only [signed]
    linarith

theorem Values.objective_eq (h : Values p u) :
    u.objective = signed p.direction (p.objectiveValue (decisions p u.solution)) :=
  objective_eq_of_priced h.solved h.columns_eq h.priced

theorem Values.optimum_value (h : Values p u) : (optimum s p u).value =
    some (Scalar.clean s.tolerance (p.objectiveValue (decisions p u.solution))) := by
  rw [optimum_value_eq, h.objective_eq, signed_signed]

theorem exists_values_of_solve (ht : 0 ≤ s.tolerance) (h : solve s p = .ok o)
    (ho : o.status = .optimal) : ∃ u, Values p u ∧ u.next s.tolerance = .optimal ∧
      o.value = (optimum s p u).value ∧ o.point = (optimum s p u).point := by
  obtain ⟨hvalid, h'⟩ := accept_eq_ok_iff.mp h
  obtain ⟨start, pivots, hone, htwo, hvalue, hpoint, -⟩ := exists_optimum_of_optimize h' ho
  have hwf := LinearProgram.violations_eq_nil_iff.mp hvalid
  exact ⟨_, values_of_phaseOne_feasible ht hwf hone, next_of_run_optimal _ _ _ _ htwo, hvalue,
    hpoint⟩

section Gap

theorem sum_entry (l : List Rat) : ∑ j ∈ Finset.range l.length, entry l j = l.sum := by
  induction l with
  | nil => rfl
  | cons v l ih =>
    rw [List.length_cons, Finset.sum_range_succ', List.sum_cons]
    simp only [entry_cons_zero, entry_cons_succ, ih]
    ring

theorem sum_withSlacks (hx : x.length = p.variableCount) :
    ∑ j ∈ Finset.range (layout p).real, withSlacks p x j =
      x.sum + (slacks x p.rowList).sum := by
  have hlength : (x ++ slacks x p.rowList).length = (layout p).real := by
    rw [List.length_append, hx, length_slacks]
  rw [← List.sum_append, ← sum_entry, hlength]
  rfl

/-- Where no reduced cost is negative beyond the tolerance, a feasible point costs less than the
basic solution by at most the tolerance for each unit of its variables and its slacks. -/
theorem Values.objective_le (h : Values p u) (hnone : u.next tolerance = .optimal)
    (hx : p.Feasible x) : u.objective ≤ signed p.direction (p.objectiveValue x) +
      tolerance * (x.sum + (slacks x p.rowList).sum) := by
  have hentry : ∀ j < (layout p).real, -tolerance ≤ entry u.costs j := fun j hj =>
    not_lt.mp (Tableau.not_lt_of_enteringColumn_eq_none
      (Tableau.enteringColumn_of_next_eq_optimal hnone) (h.columns_eq ▸ hj))
  have hcosts : -tolerance * (x.sum + (slacks x p.rowList).sum) ≤
      eval (layout p).real u.costs (withSlacks p x) := by
    rw [← sum_withSlacks hx.length_eq, Finset.mul_sum]
    exact Finset.sum_le_sum fun j hj => mul_le_mul_of_nonneg_right
      (hentry j (Finset.mem_range.mp hj)) (withSlacks_nonneg hx.nonneg j)
  rw [h.cost_eq hx]
  linarith

/-- No feasible point is better than an optimum by more than the tolerance, once for the value
itself and once for each unit of the point and of its distances from the bounds of the
inequalities. -/
theorem optimal_value_gap (ht : 0 ≤ s.tolerance) (h : solve s p = .ok o)
    (ho : o.status = .optimal) : ∃ z, o.value = some z ∧ ∀ x, p.Feasible x →
      p.direction.advantage (p.objectiveValue x) z ≤
        s.tolerance * (1 + x.sum + (slacks x p.rowList).sum) := by
  obtain ⟨u, hu, hnone, hvalue, -⟩ := exists_values_of_solve ht h ho
  refine ⟨_, hvalue.trans hu.optimum_value, fun x hx => ?_⟩
  have hgap := hu.objective_le hnone hx
  rw [hu.objective_eq] at hgap
  have hclean := (signed_sub_le_abs p.direction _ _).trans
    (Scalar.abs_clean_sub_le (p.objectiveValue (decisions p u.solution)) ht)
  rw [advantage_eq]
  linarith

def loose : LinearProgram Rat :=
  { direction := .maximize
    objective := [0, 1 / 4, 1 / 20]
    constraints := [[1, 1, 0], [1, 21 / 20, 0], [0, 0, 1]]
    signs := [.equal, .equal, .lessEqual]
    rhs := [2, 2, 30] }

def looseOptimum : Solution Rat :=
  { Solution.optimum (1 / 2) [0, 2, 0] [0, 0, 30] with statistics := ⟨1, 1, 3, 6⟩ }

theorem loose_value_gap : solve ⟨1 / 10, 50⟩ loose = .ok looseOptimum ∧
    loose.Feasible [2, 0, 30] ∧ loose.objectiveValue [2, 0, 30] = 3 / 2 ∧
    ∀ x, loose.Feasible x → loose.objectiveValue x - 1 / 2 ≤
      1 / 10 * (1 + x.sum + (slacks x loose.rowList).sum) := by
  have hs : solve ⟨1 / 10, 50⟩ loose = .ok looseOptimum := by decide +kernel
  obtain ⟨z, hz, hgap⟩ := optimal_value_gap (by decide +kernel) hs rfl
  obtain rfl := Option.some.inj hz
  exact ⟨hs, by decide +kernel, by decide +kernel, hgap⟩

end Gap

section Point

/-- What the variables with values that are taken for zero cost in one unit. -/
def cleanedCost (tolerance : Rat) (costs x : List Rat) : Rat :=
  (costs.zipWith (fun c v => if v ≠ 0 ∧ |v| ≤ tolerance then |c| else 0) x).sum

theorem abs_mul_sub_clean_le (ht : 0 ≤ tolerance) (c v : Rat) :
    |c * v - c * Scalar.clean tolerance v| ≤
      tolerance * if v ≠ 0 ∧ |v| ≤ tolerance then |c| else 0 := by
  rw [← mul_sub, abs_mul]
  split
  · rw [abs_sub_comm, mul_comm]
    exact mul_le_mul_of_nonneg_right (Scalar.abs_clean_sub_le v ht) (abs_nonneg c)
  · next hv =>
    -- A value that is zero already or beyond the tolerance stays as it is.
    have hclean : Scalar.clean tolerance v = v := by
      rw [not_and_or, not_not] at hv
      rcases hv with rfl | hv
      · exact Scalar.clean_of_zero tolerance
      · rw [Scalar.clean, if_neg (by rwa [Scalar.abs_rat])]
    rw [hclean, sub_self, abs_zero, mul_zero, mul_zero]

theorem abs_dot_sub_clean_le (ht : 0 ≤ tolerance) (costs x : List Rat) :
    |Scalar.dot costs x - Scalar.dot costs (x.map (Scalar.clean tolerance))| ≤
      tolerance * cleanedCost tolerance costs x := by
  simp only [Scalar.dot_rat, cleanedCost]
  induction costs generalizing x with
  | nil => simp
  | cons c costs ih =>
    cases x with
    | nil => simp
    | cons v x =>
      simp only [List.map_cons, List.zipWith_cons_cons, List.sum_cons, mul_add]
      rw [add_sub_add_comm]
      exact (abs_add_le _ _).trans (add_le_add (abs_mul_sub_clean_le ht c v) (ih x))

/-- The value of an optimum belongs to a point from which the reported point differs only where
values within the tolerance are taken for zero. The objective of the reported point therefore
misses the value by at most the tolerance, and the tolerance once more for each unit that one of
these variables costs. -/
theorem optimal_value_near (ht : 0 ≤ s.tolerance) (h : solve s p = .ok o)
    (ho : o.status = .optimal) : ∃ z x, o.value = some z ∧ x.length = p.variableCount ∧
      z = Scalar.clean s.tolerance (p.objectiveValue x) ∧
      o.point = x.map (Scalar.clean s.tolerance) ∧
      |z - p.objectiveValue o.point| ≤
        s.tolerance * (1 + cleanedCost s.tolerance p.objective x) := by
  obtain ⟨u, hu, -, hvalue, hpoint⟩ := exists_values_of_solve ht h ho
  have hx := optimum_point_eq hu.solved s p
  refine ⟨_, decisions p u.solution, hvalue.trans hu.optimum_value, length_decisions, rfl,
    hpoint.trans hx, ?_⟩
  rw [hpoint, hx]
  have hclean := Scalar.abs_clean_sub_le (p.objectiveValue (decisions p u.solution)) ht
  have hdot := abs_dot_sub_clean_le ht p.objective (decisions p u.solution)
  have htriangle := abs_sub_le
    (Scalar.clean s.tolerance (p.objectiveValue (decisions p u.solution)))
    (p.objectiveValue (decisions p u.solution))
    (p.objectiveValue ((decisions p u.solution).map (Scalar.clean s.tolerance)))
  simp only [LinearProgram.objectiveValue] at htriangle hclean ⊢
  linarith

def faint : LinearProgram Rat :=
  { direction := .maximize
    objective := [2 ^ 30]
    constraints := [[1]]
    signs := [.lessEqual]
    rhs := [1 / 2 ^ 31] }

def faintOptimum : Solution Rat :=
  { Solution.optimum (1 / 2) [0] [0] with statistics := ⟨1, 0, 1, 2⟩ }

/-- An optimum of value one half at a point of no value. -/
theorem faint_differs : faint.violations = [] ∧
    solve ⟨1 / 10 ^ 9, 5000⟩ faint = .ok faintOptimum ∧ faintOptimum.status = .optimal ∧
    faintOptimum.value = some (1 / 2) ∧ faint.objectiveValue faintOptimum.point = 0 ∧
    1 / 10 ^ 9 < |1 / 2 - faint.objectiveValue faintOptimum.point| := by
  decide +kernel

theorem faint_value_near : solve ⟨1 / 10 ^ 9, 5000⟩ faint = .ok faintOptimum ∧
    ∃ x, faintOptimum.point = x.map (Scalar.clean (1 / 10 ^ 9)) ∧
      1 / 2 = Scalar.clean (1 / 10 ^ 9) (faint.objectiveValue x) ∧
      1 / 2 ≤ 1 / 10 ^ 9 * (1 + cleanedCost (1 / 10 ^ 9) faint.objective x) := by
  have hs : solve ⟨1 / 10 ^ 9, 5000⟩ faint = .ok faintOptimum := by decide +kernel
  obtain ⟨z, x, hz, -, hx, hpoint, hnear⟩ := optimal_value_near (by decide +kernel) hs rfl
  obtain rfl := Option.some.inj hz
  have hzero : |1 / 2 - faint.objectiveValue faintOptimum.point| = 1 / 2 := by decide +kernel
  exact ⟨hs, x, hpoint, hx, hzero ▸ hnear⟩

end Point

end Simplex

end LeastCost
