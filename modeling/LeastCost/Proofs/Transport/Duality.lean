import Mathlib.Algebra.Order.BigOperators.Ring.Finset
import Mathlib.Data.Rat.BigOperators
import Mathlib.Data.Real.Basic
import LeastCost.Proofs.Transport.Balanced

/-! # Least among real plans

Potentials of the balanced network, shifted such that the dummy node has none, are prices of the
supplies and demands of the problem itself. They bound the costs of all amounts that meet the
problem, be these rational or real.
-/

namespace LeastCost.Transportation.Problem

open scoped BigOperators

variable {p : Problem Rat} {x : Fin p.sources → Fin p.destinations → Rat}
  {y : Fin p.sources → Fin p.destinations → ℝ} {u : Fin p.sources → Rat}
  {v : Fin p.destinations → Rat} {total : Rat}

/-- Real amounts that use up the lesser one of total supply and total demand, and exceed
nothing. -/
structure MeetsReal (p : Problem Rat) (y : Fin p.sources → Fin p.destinations → ℝ) : Prop where
  nonneg : ∀ i j, 0 ≤ y i j
  of_demand_le : p.totalDemand ≤ p.totalSupply →
    (∀ j, ∑ i, y i j = p.demandAt j) ∧ ∀ i, ∑ j, y i j ≤ p.supplyAt i
  of_supply_le : p.totalSupply ≤ p.totalDemand →
    (∀ i, ∑ j, y i j = p.supplyAt i) ∧ ∀ j, ∑ i, y i j ≤ p.demandAt j

def realCost (p : Problem Rat) (y : Fin p.sources → Fin p.destinations → ℝ) : ℝ :=
  ∑ i, ∑ j, y i j * p.cost i.val j.val

theorem Meets.real (h : p.Meets x) : p.MeetsReal fun i j => x i j where
  nonneg i j := Rat.cast_nonneg.mpr (h.nonneg i j)
  of_demand_le hle := by
    obtain ⟨hcolumns, hrows⟩ := h.of_demand_le hle
    exact ⟨fun j => by exact_mod_cast hcolumns j, fun i => by exact_mod_cast hrows i⟩
  of_supply_le hle := by
    obtain ⟨hrows, hcolumns⟩ := h.of_supply_le hle
    exact ⟨fun i => by exact_mod_cast hrows i, fun j => by exact_mod_cast hcolumns j⟩

theorem realCost_cast (x : Fin p.sources → Fin p.destinations → Rat) :
    p.realCost (fun i j => x i j) = p.shippingCost x := by
  rw [realCost, shippingCost]
  push_cast
  rfl

/-- Prices of supplies and demands that no cost undercuts, with the total that they price the
amounts at. Where one side is in excess, its prices are not positive. -/
structure Certify (p : Problem Rat) (u : Fin p.sources → Rat) (v : Fin p.destinations → Rat)
    (total : Rat) : Prop where
  le_cost : ∀ i j, u i + v j ≤ p.cost i.val j.val
  supply_nonpos : p.totalDemand < p.totalSupply → ∀ i, u i ≤ 0
  demand_nonpos : p.totalSupply < p.totalDemand → ∀ j, v j ≤ 0
  total_eq : total = ∑ i, p.supplyAt i * u i + ∑ j, p.demandAt j * v j

theorem Certify.supply_le (h : p.Certify u v total) (hy : p.MeetsReal y) (i : Fin p.sources) :
    (p.supplyAt i * u i : ℝ) ≤ ∑ j, y i j * u i := by
  rw [← Finset.sum_mul]
  rcases lt_or_ge p.totalDemand p.totalSupply with hlt | hle
  · exact mul_le_mul_of_nonpos_right ((hy.of_demand_le hlt.le).2 i)
      (Rat.cast_nonpos.mpr (h.supply_nonpos hlt i))
  · rw [(hy.of_supply_le hle).1 i]

theorem Certify.demand_le (h : p.Certify u v total) (hy : p.MeetsReal y)
    (j : Fin p.destinations) : (p.demandAt j * v j : ℝ) ≤ ∑ i, y i j * v j := by
  rw [← Finset.sum_mul]
  rcases lt_or_ge p.totalSupply p.totalDemand with hlt | hle
  · exact mul_le_mul_of_nonpos_right ((hy.of_supply_le hlt.le).2 j)
      (Rat.cast_nonpos.mpr (h.demand_nonpos hlt j))
  · rw [(hy.of_demand_le hle).1 j]

/-- No real amounts that meet the problem cost less than the total of such prices. -/
theorem Certify.le_realCost (h : p.Certify u v total) (hy : p.MeetsReal y) :
    (total : ℝ) ≤ p.realCost y := by
  calc (total : ℝ) = ∑ i, (p.supplyAt i * u i : ℝ) + ∑ j, (p.demandAt j * v j : ℝ) := by
        rw [h.total_eq]
        push_cast
        rfl
    _ ≤ ∑ i, ∑ j, y i j * u i + ∑ j, ∑ i, y i j * v j :=
        add_le_add (Finset.sum_le_sum fun i _ => h.supply_le hy i)
          (Finset.sum_le_sum fun j _ => h.demand_le hy j)
    _ = ∑ i, ∑ j, y i j * (u i + v j) := by
        rw [Finset.sum_comm (f := fun j i => y i j * (v j : ℝ)), ← Finset.sum_add_distrib]
        simp only [mul_add, Finset.sum_add_distrib]
    _ ≤ p.realCost y := by
        refine Finset.sum_le_sum fun i _ => Finset.sum_le_sum fun j _ => ?_
        exact mul_le_mul_of_nonneg_left (by exact_mod_cast h.le_cost i j) (hy.nonneg i j)

end LeastCost.Transportation.Problem

namespace LeastCost.Transport

open scoped BigOperators
open Transportation (Problem)
open Network

variable {p : Problem Rat} {total : Rat}

theorem certify_ofProblem (he : p.totalSupply = p.totalDemand)
    {q : Potentials Rat p.sources p.destinations} (h : q.Certify (ofProblem p) total) :
    p.Certify q.row q.column total := by
  refine ⟨fun i j => ?_, fun hlt => absurd he hlt.ne', fun hlt => absurd he hlt.ne, ?_⟩
  · have hreduced := h.reduced_nonneg (i, j)
    rw [Potentials.reduced, costs_ofProblem] at hreduced
    linarith
  · rw [h.total_eq]
    simp only [supply_ofProblem, demand_ofProblem]

/-- The dummy destination's price is taken from the demands and added to the supplies. -/
theorem certify_withDestination (hlt : p.totalDemand < p.totalSupply)
    {q : Potentials Rat p.sources (p.destinations + 1)}
    (h : q.Certify ((ofProblem p).withDestination (p.totalSupply - p.totalDemand)) total) :
    p.Certify (fun i => q.row i + q.column (Fin.last _))
      (fun j => q.column j.castSucc - q.column (Fin.last _)) total := by
  refine ⟨fun i j => ?_, fun _ i => ?_, fun hgt => absurd hgt hlt.not_gt, ?_⟩
  · have hreduced := h.reduced_nonneg (i, j.castSucc)
    rw [Potentials.reduced, costs_withDestination_castSucc, costs_ofProblem] at hreduced
    linarith
  · have hreduced := h.reduced_nonneg (i, Fin.last _)
    rw [Potentials.reduced, costs_withDestination_last] at hreduced
    linarith
  · rw [h.total_eq, Fin.sum_univ_castSucc, demand_withDestination_last]
    simp only [supply_withDestination, demand_withDestination_castSucc, supply_ofProblem,
      demand_ofProblem, mul_add, mul_sub, Finset.sum_add_distrib, Finset.sum_sub_distrib,
      ← Finset.sum_mul, sum_supplyAt, sum_demandAt]
    ring

theorem certify_withSource (hlt : p.totalSupply < p.totalDemand)
    {q : Potentials Rat (p.sources + 1) p.destinations}
    (h : q.Certify ((ofProblem p).withSource (p.totalDemand - p.totalSupply)) total) :
    p.Certify (fun i => q.row i.castSucc - q.row (Fin.last _))
      (fun j => q.column j + q.row (Fin.last _)) total := by
  refine ⟨fun i j => ?_, fun hgt => absurd hgt hlt.not_gt, fun _ j => ?_, ?_⟩
  · have hreduced := h.reduced_nonneg (i.castSucc, j)
    rw [Potentials.reduced, costs_withSource_castSucc, costs_ofProblem] at hreduced
    linarith
  · have hreduced := h.reduced_nonneg (Fin.last _, j)
    rw [Potentials.reduced, costs_withSource_last] at hreduced
    linarith
  · rw [h.total_eq, Fin.sum_univ_castSucc, supply_withSource_last]
    simp only [demand_withSource, supply_withSource_castSucc, supply_ofProblem,
      demand_ofProblem, mul_add, mul_sub, Finset.sum_add_distrib, Finset.sum_sub_distrib,
      ← Finset.sum_mul, sum_supplyAt, sum_demandAt]
    ring

theorem exists_certify {q : Potentials Rat (balanced 0 p).sources (balanced 0 p).destinations}
    (h : q.Certify (balanced 0 p).network total) : ∃ u v, p.Certify u v total := by
  revert q
  apply balanced_cases (motive := fun net =>
    ∀ {q : Potentials Rat net.sources net.destinations}, q.Certify net.network total →
      ∃ u v, p.Certify u v total)
  · exact fun he q h => ⟨_, _, certify_ofProblem he h⟩
  · exact fun hlt q h => ⟨_, _, certify_withDestination hlt h⟩
  · exact fun hlt q h => ⟨_, _, certify_withSource hlt h⟩

end LeastCost.Transport
