import LeastCost.Proofs.Transport.Duality
import LeastCost.Proofs.Transport.WholePlan

/-! # Optimal plans of integral problems

A positive tolerance that is below one, even relative to the totals and to the costs, does no
harm on integral data: an optimal plan ships whole amounts, meets its problem exactly, and has
the least cost of all real plans.
-/

namespace LeastCost.Transport

open Transportation (Plan Problem)

variable {p : Problem Rat} {tolerance : Rat} {limit : Nat} {r : Plan Rat}

/-- An optimal plan of an integral problem comes from a network of whole flows, with prices that
certify its cost. -/
theorem exists_whole_plan (hint : p.Integral) (h0 : 0 ≤ tolerance)
    (htotal : tolerance * (1 + max p.totalSupply p.totalDemand) < 1)
    (hcost : ∀ row ∈ p.costs, ∀ v ∈ row, tolerance * (1 + |v|) < 1)
    (h : solve ⟨tolerance, limit⟩ p = .ok r) (hoptimal : r.status = .optimal) :
    ∃ x : Fin p.sources → Fin p.destinations → Rat, (∀ i j, Whole (x i j)) ∧
      r.flows = List.ofFn (fun i => List.ofFn (x i)) ∧ p.Meets x ∧
      r.totalCost = p.shippingCost x ∧ ∃ u v, p.Certify u v r.totalCost := by
  obtain ⟨hvalid, hplan⟩ := accept_eq_ok_iff.mp h
  have hwf := Problem.violations_eq_nil_iff.mp hvalid
  rw [plan_eq_exact hint hwf h0 htotal hcost, plan_eq] at hplan
  obtain ⟨improved, hr, rfl⟩ := map_eq_ok hplan
  obtain ⟨hflows, hmeets, hcost, q, hq⟩ :=
    planOf_certify hwf (balanced_extends hwf) hr (isOptimal_of_planOf hoptimal)
  have hwhole := optimizeNetwork_whole (balanced_whole hint) hr
  exact ⟨_, fun i j => hwhole _, hflows, hmeets, hcost, exists_certify hq⟩

/-- With a small tolerance, an optimal plan of an integral problem ships natural amounts that
meet the problem exactly, and no real amounts that meet it cost less. -/
theorem integral_plan_least (hint : p.Integral) (h0 : 0 < tolerance)
    (htotal : tolerance * (1 + max p.totalSupply p.totalDemand) < 1)
    (hcost : ∀ row ∈ p.costs, ∀ v ∈ row, tolerance * (1 + |v|) < 1)
    (h : solve ⟨tolerance, limit⟩ p = .ok r) (hoptimal : r.status = .optimal) :
    (∃ x : Fin p.sources → Fin p.destinations → Nat,
      r.flows = List.ofFn (fun i => List.ofFn fun j => (x i j : Rat)) ∧
      p.Meets (fun i j => x i j) ∧ r.totalCost = p.shippingCost fun i j => x i j) ∧
    IsLeast (p.realCost '' {y | p.MeetsReal y}) (r.totalCost : ℝ) := by
  obtain ⟨x, hwhole, hflows, hmeets, htotal, u, v, hcertify⟩ :=
    exists_whole_plan hint h0.le htotal hcost h hoptimal
  choose k hk using fun i j => (hwhole i j).exists_nat (hmeets.nonneg i j)
  obtain rfl : x = fun i j => (k i j : Rat) := funext fun i => funext (hk i)
  refine ⟨⟨k, hflows, hmeets, htotal⟩, ⟨_, hmeets.real, ?_⟩, ?_⟩
  · rw [htotal, Problem.realCost_cast]
  · rintro _ ⟨y, hy, rfl⟩
    exact hcertify.le_realCost hy

def orders : Problem Rat :=
  { supply := [5, 3, 4]
    demand := [6, 2, 7]
    costs := [[2, 2, 1], [1, 3, -2], [3, 2, 3]] }

theorem orders_least :
    ∃ r, solve ⟨1 / 10 ^ 9, 5000⟩ orders = .ok r ∧ r.status = .optimal ∧
      IsLeast (orders.realCost '' {y | orders.MeetsReal y}) (r.totalCost : ℝ) := by
  have hint : orders.Integral := by
    refine ⟨fun v hv => Whole.of_den ?_, fun v hv => Whole.of_den ?_,
      fun row hrow v hv => Whole.of_den ?_⟩
    · exact (by decide : ∀ v ∈ orders.supply, v.den = 1) v hv
    · exact (by decide : ∀ v ∈ orders.demand, v.den = 1) v hv
    · exact (by decide : ∀ row ∈ orders.costs, ∀ v ∈ row, v.den = 1) row hrow v hv
  have htotal : (1 / 10 ^ 9 : Rat) * (1 + max orders.totalSupply orders.totalDemand) < 1 := by
    decide +kernel
  have hcost : ∀ row ∈ orders.costs, ∀ v ∈ row, (1 / 10 ^ 9 : Rat) * (1 + |v|) < 1 := by
    decide +kernel
  have hvalid : orders.violations = [] := by decide +kernel
  have hplan : ∃ r, solve ⟨1 / 10 ^ 9, 5000⟩ orders = .ok r ∧ r.status = .optimal := by
    apply exists_ok_of_map
    rw [solve, plan_eq_exact hint (Problem.violations_eq_nil_iff.mp hvalid) (by decide +kernel)
      htotal hcost, plan_of_supply_lt (by decide +kernel), optimizeNetwork, initialBasis,
      Basis.complete_of_size_ge _ (by decide +kernel)]
    decide +kernel
  obtain ⟨r, hr, hoptimal⟩ := hplan
  exact ⟨r, hr, hoptimal,
    (integral_plan_least hint (by decide +kernel) htotal hcost hr hoptimal).2⟩

end LeastCost.Transport
