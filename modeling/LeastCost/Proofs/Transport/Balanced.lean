import Mathlib.Order.Bounds.Basic
import LeastCost.Proofs.Transport.Optimality
import LeastCost.Proofs.Transport.Totality

/-! # The network of a problem

Without tolerance a problem is planned on itself, or with a dummy node for the difference of its
totals. In each case the network stands for the problem, so there are amounts that meet the
problem, and an optimal plan has the least one of their costs.
-/

namespace LeastCost.Transport

open scoped BigOperators
open Transportation (Plan Problem)

variable {p : Problem Rat} {limit : Nat} {r : Plan Rat}

theorem sum_supplyAt (p : Problem Rat) : ∑ i, p.supplyAt i = p.totalSupply := by
  rw [← Network.sum_supply]
  exact Finset.sum_congr rfl fun i _ => (Network.supply_ofProblem i).symm

theorem sum_demandAt (p : Problem Rat) : ∑ j, p.demandAt j = p.totalDemand := by
  rw [← Network.sum_demand]
  exact Finset.sum_congr rfl fun j _ => (Network.demand_ofProblem j).symm

theorem balanced_cases {motive : SizedNetwork Rat → Prop}
    (even : p.totalSupply = p.totalDemand → motive ⟨Network.ofProblem p⟩)
    (surplus : p.totalDemand < p.totalSupply →
      motive ⟨(Network.ofProblem p).withDestination (p.totalSupply - p.totalDemand)⟩)
    (shortage : p.totalSupply < p.totalDemand →
      motive ⟨(Network.ofProblem p).withSource (p.totalDemand - p.totalSupply)⟩) :
    motive (balanced 0 p) := by
  rcases lt_trichotomy p.totalDemand p.totalSupply with hlt | heq | hgt
  · have h := surplus hlt
    simpa only [balanced, Balance.ofProblem, zero_mul, sub_pos, hlt, if_true] using h
  · have h := even heq.symm
    simpa only [balanced, Balance.ofProblem, zero_mul, neg_sub, sub_pos, heq, lt_irrefl,
      if_false] using h
  · have h := shortage hgt
    simpa only [balanced, Balance.ofProblem, zero_mul, neg_sub, sub_pos, hgt, hgt.not_gt, if_true,
      if_false] using h

theorem balanced_extends (h : p.WellFormed) : (balanced 0 p).network.Extends p := by
  apply balanced_cases (motive := fun net => net.network.Extends p)
  · exact Network.ofProblem_extends h
  · exact Network.withDestination_extends h
  · exact Network.withSource_extends h

/-- The first plan meets the problem already. -/
theorem exists_meets (h : p.WellFormed) : ∃ x, p.Meets x :=
  ⟨_, ((balanced_extends h).strip (initialBasis_ships (balanced_extends h).balanced).meets).1⟩

theorem isLeast_totalCost (h : solve ⟨0, limit⟩ p = .ok r) (hoptimal : r.status = .optimal) :
    IsLeast (p.shippingCost '' {x | p.Meets x}) r.totalCost := by
  obtain ⟨hvalid, hplan⟩ := accept_eq_ok_iff.mp h
  have hwf := Problem.violations_eq_nil_iff.mp hvalid
  rw [plan_eq] at hplan
  obtain ⟨x, -, hx, hcost, hleast⟩ := planOf_unsurpassed hwf (balanced_extends hwf) hplan hoptimal
  refine ⟨⟨x, hx, hcost.symm⟩, ?_⟩
  rintro _ ⟨y, hy, rfl⟩
  exact hleast y hy

end LeastCost.Transport
