import Mathlib.Analysis.Convex.Birkhoff
import LeastCost.Proofs.Hungarian.Optimality
import LeastCost.Proofs.Simplex.Optimality
import LeastCost.Proofs.Transport.Balanced

/-! # Optimal results as least elements

The value of an optimum without tolerance is the least element of a set that does not mention
the engine: the values of the feasible points, or the costs of the amounts that meet a problem.
A doubly stochastic matrix is a mean of permutations, so the cost of an assignment is least
among fractional shipments of one unit to a row and a column as well.
-/

namespace LeastCost

open scoped BigOperators

namespace Simplex

open LinearProgram (Solution)

variable {p : LinearProgram Rat} {limit : Nat} {s : Solution Rat} {x : List Rat}

theorem isLeast_value (hd : p.direction = .minimize) (h : solve ⟨0, limit⟩ p = .ok s)
    (hs : s.status = .optimal) :
    ∃ v, s.value = some v ∧ IsLeast (p.objectiveValue '' {x | p.Feasible x}) v := by
  obtain ⟨hvalid, ho⟩ := accept_eq_ok_iff.mp h
  have hwf := LinearProgram.violations_eq_nil_iff.mp hvalid
  obtain ⟨start, pivots, hone, htwo, hs', -⟩ := exists_optimum_of_optimize ho hs
  have hstart := start_of_phaseOne_feasible hwf hone
  have hvalue := (hstart.optimum_value limit pivots).2
  refine ⟨_, hs'.trans hvalue, ?_, ?_⟩
  · exact Set.mem_image_of_mem _ (hstart.optimum_feasible hwf limit pivots)
  · rintro _ ⟨x, hx, rfl⟩
    have hnot := hstart.optimum_unsurpassed hwf htwo hx
    rw [hd] at hnot
    exact not_lt.mp hnot

/-- A program with a feasible point and a bound on the values of all of them is undecided only
for want of pivots. -/
theorem exists_decided (h : p.WellFormed) (hx : p.Feasible x) (bound : Rat)
    (hbound : ∀ y, p.Feasible y → ¬ p.direction.Better (p.objectiveValue y) bound)
    (limit : Nat) : ∃ s, solve ⟨0, limit⟩ p = .ok s ∧ s.status ≠ .infeasible ∧
      s.status ≠ .unbounded := by
  simp only [solve, accept_eq_ok_iff, LinearProgram.violations_eq_nil_iff.mpr h, true_and, optimize]
  cases hone : phaseOne ⟨0, limit⟩ p with
  | unbounded => exact absurd hone (phaseOne_ne_unbounded h)
  | iterationLimit pivots => exact ⟨_, rfl, by simp [limitReached], by simp [limitReached]⟩
  | infeasible pivots => exact absurd hx (not_feasible_of_phaseOne_infeasible h hone)
  | feasible start pivots =>
    have hstart := start_of_phaseOne_feasible h hone
    refine ⟨_, rfl, ?_⟩
    cases htwo : (phaseTwo ⟨0, limit⟩ p start pivots).verdict with
    | optimal => simp [optimum, Solution.optimum]
    | iterationLimit => simp [limitReached]
    | unbounded =>
      obtain ⟨y, hy, hbetter⟩ := hstart.exists_better h htwo bound
      exact absurd hbetter (hbound y hy)

end Simplex

namespace Assignment.Problem

variable {q : Problem Rat}

/-- One unit from every row to every column. -/
def asShipping {α : Type} [Scalar α] (q : Problem α) : Transportation.Problem α :=
  { supply := List.replicate q.size 1
    demand := List.replicate q.size 1
    costs := q.costs }

theorem sources_asShipping (q : Problem Rat) : q.asShipping.sources = q.size :=
  List.length_replicate

theorem wellFormed_of_asShipping (h : q.asShipping.WellFormed) : q.WellFormed where
  size_ne_zero := sources_asShipping q ▸ h.sources_ne_zero
  rows_fit := by
    have hfit := h.rows_fit
    rwa [show q.asShipping.destinations = q.size from List.length_replicate] at hfit

theorem meets_asShipping_iff
    {x : Fin q.asShipping.sources → Fin q.asShipping.sources → Rat} :
    q.asShipping.Meets x ↔
      (∀ i j, 0 ≤ x i j) ∧ (∀ i, ∑ j, x i j = 1) ∧ ∀ j, ∑ i, x i j = 1 := by
  have htotal : q.asShipping.totalSupply = q.asShipping.totalDemand := rfl
  have hunit : ∀ i, q.asShipping.supplyAt i = 1 := fun i => List.getElem_replicate _
  constructor
  · intro h
    exact ⟨h.nonneg, fun i => ((h.of_supply_le htotal.le).1 i).trans (hunit i),
      fun j => ((h.of_demand_le htotal.ge).1 j).trans (hunit j)⟩
  · rintro ⟨h0, hrows, hcolumns⟩
    have hsupply := fun i => (hrows i).trans (hunit i).symm
    have hdemand := fun j => (hcolumns j).trans (hunit j).symm
    exact ⟨h0, fun _ => ⟨hdemand, fun i => (hsupply i).le⟩,
      fun _ => ⟨hsupply, fun j => (hdemand j).le⟩⟩

section Permutations

variable {n : Nat} {f : Fin n → Fin n → Rat}

theorem cost_permMatrix (f : Fin n → Fin n → Rat) (σ : Equiv.Perm (Fin n)) :
    ∑ i, ∑ j, σ.permMatrix Rat i j * f i j = ∑ i, f i (σ i) := by
  refine Finset.sum_congr rfl fun i _ => ?_
  simp [Equiv.Perm.permMatrix, PEquiv.toMatrix_apply]

/-- A value below the costs of all permutations is below the costs of all their means, which are
the amounts with sums of one in both directions. -/
theorem le_of_sums_eq_one {v : Rat} (hv : ∀ σ : Equiv.Perm (Fin n), v ≤ ∑ i, f i (σ i))
    {x : Fin n → Fin n → Rat} (h0 : ∀ i j, 0 ≤ x i j) (hrows : ∀ i, ∑ j, x i j = 1)
    (hcolumns : ∀ j, ∑ i, x i j = 1) : v ≤ ∑ i, ∑ j, x i j * f i j := by
  obtain ⟨w, hw, hsum, hx⟩ := exists_eq_sum_perm_of_mem_doublyStochastic
    (mem_doublyStochastic_iff_sum.mpr ⟨h0, hrows, hcolumns⟩)
  have hcost : ∑ i, ∑ j, x i j * f i j = ∑ σ, w σ * ∑ i, f i (σ i) := by
    simp only [← hx, ← cost_permMatrix, Matrix.sum_apply, Matrix.smul_apply, smul_eq_mul,
      Finset.sum_mul, Finset.mul_sum, mul_assoc]
    exact (Finset.sum_congr rfl fun i _ => Finset.sum_comm).trans Finset.sum_comm
  calc v = ∑ σ, w σ * v := by rw [← Finset.sum_mul, hsum, one_mul]
    _ ≤ ∑ σ, w σ * ∑ i, f i (σ i) :=
        Finset.sum_le_sum fun σ _ => mul_le_mul_of_nonneg_left (hv σ) (hw σ)
    _ = ∑ i, ∑ j, x i j * f i j := hcost.symm

end Permutations

theorem exists_assignment (h : q.WellFormed) (s : Settings Rat) {n : Nat} (hn : q.size = n) :
    ∃ a, Hungarian.solve s q = .ok a ∧
      (∃ σ : Equiv.Perm (Fin n), a.totalCost = ∑ i, q.cost i.val (σ i).val) ∧
      ∀ σ : Equiv.Perm (Fin n), a.totalCost ≤ ∑ i, q.cost i.val (σ i).val := by
  subst hn
  have hcost : ∀ i j : Fin q.size,
      (Grid.ofLists q.costs : Grid Rat q.size q.size) i j = q.cost i.val j.val :=
    fun i j => Grid.get_ofFn _ i j
  obtain ⟨a, ha, σ, -, htotal, hleast⟩ :=
    Hungarian.assign_ok s.tolerance (Grid.ofLists q.costs : Grid Rat q.size q.size)
  simp only [hcost] at htotal hleast
  exact ⟨a, accept_eq_ok_iff.mpr ⟨violations_eq_nil_iff.mpr h, ha⟩, ⟨σ, htotal⟩,
    fun τ => htotal.trans_le (hleast τ)⟩

theorem exists_isLeast (h : q.WellFormed) (s : Settings Rat) :
    ∃ a, Hungarian.solve s q = .ok a ∧
      IsLeast (q.asShipping.shippingCost '' {x | q.asShipping.Meets x}) a.totalCost := by
  obtain ⟨a, ha, ⟨σ, hσ⟩, hleast⟩ := exists_assignment h s (sources_asShipping q).symm
  refine ⟨a, ha, ⟨σ.permMatrix Rat, ?_, ?_⟩, ?_⟩
  · exact meets_asShipping_iff.mpr
      (mem_doublyStochastic_iff_sum.mp permMatrix_mem_doublyStochastic)
  · rw [hσ]
    exact cost_permMatrix (fun i j => q.cost i.val j.val) σ
  · rintro _ ⟨x, hx, rfl⟩
    obtain ⟨h0, hrows, hcolumns⟩ := meets_asShipping_iff.mp hx
    exact le_of_sums_eq_one (f := fun i j => q.cost i.val j.val) hleast h0 hrows hcolumns

end Assignment.Problem

end LeastCost
