import LeastCost.Proofs.Engines.Optima
import LeastCost.Proofs.Engines.Program

/-! # Agreement of the engines

Without tolerance all engines minimize over the same set of costs. A transportation problem is a
linear program over its flows, and an assignment is a shipment of one unit from every row to
every column. So where two engines report an optimum, they report the same cost.
-/

namespace LeastCost.Engines

open scoped BigOperators
open LinearProgram (Solution)
open Transportation (Plan Problem)

variable {p : Problem Rat} {x : Fin p.sources → Fin p.destinations → Rat}

/-- The cost of shipping every supply on all links at once, at a gain. -/
def costFloor (p : Problem Rat) : Rat :=
  -∑ i, ∑ j : Fin p.destinations, p.supplyAt i * |p.cost i.val j.val|

theorem flow_le_supply (h : p.Meets x) (i : Fin p.sources) (j : Fin p.destinations) :
    x i j ≤ p.supplyAt i := by
  have hrow : ∑ j, x i j ≤ p.supplyAt i := by
    rcases le_total p.totalDemand p.totalSupply with hle | hle
    · exact (h.of_demand_le hle).2 i
    · exact ((h.of_supply_le hle).1 i).le
  exact (Finset.single_le_sum (fun j _ => h.nonneg i j) (Finset.mem_univ j)).trans hrow

theorem costFloor_le (h : p.Meets x) : costFloor p ≤ p.shippingCost x := by
  simp only [costFloor, Problem.shippingCost, ← Finset.sum_neg_distrib]
  refine Finset.sum_le_sum fun i _ => Finset.sum_le_sum fun j _ => ?_
  calc -(p.supplyAt i * |p.cost i.val j.val|)
      ≤ -(x i j * |p.cost i.val j.val|) :=
        neg_le_neg (mul_le_mul_of_nonneg_right (flow_le_supply h i j) (abs_nonneg _))
    _ = x i j * -|p.cost i.val j.val| := by rw [mul_neg]
    _ ≤ x i j * p.cost i.val j.val :=
        mul_le_mul_of_nonneg_left (neg_abs_le _) (h.nonneg i j)

theorem program_decided (h : p.WellFormed) (limit : Nat) :
    ∃ s, Simplex.solve ⟨0, limit⟩ p.toProgram = .ok s ∧ s.status ≠ .infeasible ∧
      s.status ≠ .unbounded := by
  obtain ⟨x, hx⟩ := Transport.exists_meets h
  apply Simplex.exists_decided (Problem.toProgram_wellFormed h)
    ((Problem.feasible_flat_iff h).mpr hx) (costFloor p)
  intro l hl
  obtain ⟨y, hy, hcost⟩ : p.toProgram.objectiveValue l ∈ p.shippingCost '' {x | p.Meets x} :=
    Problem.image_objectiveValue h ▸ Set.mem_image_of_mem _ hl
  exact not_lt.mpr (hcost ▸ costFloor_le hy)

theorem program_value_eq_totalCost {limit limit' : Nat} {s : Solution Rat} {r : Plan Rat}
    (hs : Simplex.solve ⟨0, limit⟩ p.toProgram = .ok s) (hsopt : s.status = .optimal)
    (hr : Transport.solve ⟨0, limit'⟩ p = .ok r) (hropt : r.status = .optimal) :
    s.value = some r.totalCost := by
  have hwf := Problem.violations_eq_nil_iff.mp (accept_eq_ok_iff.mp hr).1
  obtain ⟨v, hv, hleast⟩ := Simplex.isLeast_value rfl hs hsopt
  rw [Problem.image_objectiveValue hwf] at hleast
  rw [hv, hleast.unique (Transport.isLeast_totalCost hr hropt)]

theorem exists_assignment_totalCost_eq {q : Assignment.Problem Rat} (settings : Settings Rat)
    {limit : Nat} {r : Plan Rat} (hr : Transport.solve ⟨0, limit⟩ q.asShipping = .ok r)
    (hropt : r.status = .optimal) :
    ∃ a, Hungarian.solve settings q = .ok a ∧ a.totalCost = r.totalCost := by
  have hwf := Problem.violations_eq_nil_iff.mp (accept_eq_ok_iff.mp hr).1
  obtain ⟨a, ha, hleast⟩ := Assignment.Problem.exists_isLeast
    (Assignment.Problem.wellFormed_of_asShipping hwf) settings
  exact ⟨a, ha, hleast.unique (Transport.isLeast_totalCost hr hropt)⟩

/-- The engines agree. The linear program of a valid transportation problem is neither infeasible
nor unbounded, and its optimum is the cost of an optimal plan. The optimal cost of shipping one
unit from every row to every column is the cost of the assignment. -/
theorem engines_agree :
    (∀ p : Problem Rat, p.violations = [] →
      (∀ limit, ∃ s, Simplex.solve ⟨0, limit⟩ p.toProgram = .ok s ∧ s.status ≠ .infeasible ∧
        s.status ≠ .unbounded) ∧
      ∀ limit limit' s r, Simplex.solve ⟨0, limit⟩ p.toProgram = .ok s → s.status = .optimal →
        Transport.solve ⟨0, limit'⟩ p = .ok r → r.status = .optimal →
        s.value = some r.totalCost) ∧
    ∀ (q : Assignment.Problem Rat) (settings : Settings Rat) limit r,
      Transport.solve ⟨0, limit⟩ q.asShipping = .ok r → r.status = .optimal →
      ∃ a, Hungarian.solve settings q = .ok a ∧ a.totalCost = r.totalCost := by
  refine ⟨fun p h => ⟨program_decided (Problem.violations_eq_nil_iff.mp h), ?_⟩, ?_⟩
  · intro limit limit' s r hs hsopt hr hropt
    exact program_value_eq_totalCost hs hsopt hr hropt
  · intro q settings limit r hr hropt
    exact exists_assignment_totalCost_eq settings hr hropt

/-- More demand than supply, and ties that make the first plan a poor one. -/
def rationed : Problem Rat :=
  { supply := [5, 3, 4]
    demand := [6, 2, 7]
    costs := [[2, 2, 1], [1, 3, 2], [3, 2, 3]] }

def pairing : Assignment.Problem Rat := { costs := [[4, -1], [2, -3]] }

theorem rationed_planned :
    ∃ r, Transport.solve ⟨0, 50⟩ rationed = .ok r ∧ r.status = .optimal := by
  apply exists_ok_of_map
  rw [Transport.solve, Transport.plan_of_supply_lt (by decide +kernel), Transport.optimizeNetwork,
    Transport.initialBasis, Transport.Basis.complete_of_size_ge _ (by decide +kernel)]
  decide +kernel

theorem pairing_planned :
    ∃ r, Transport.solve ⟨0, 50⟩ pairing.asShipping = .ok r ∧ r.status = .optimal := by
  apply exists_ok_of_map
  rw [Transport.solve, Transport.plan_of_eq (by decide +kernel), Transport.optimizeNetwork,
    Transport.initialBasis, Transport.Basis.complete_of_size_ge _ (by decide +kernel)]
  decide +kernel

/-- The engines do report optima on these problems, with the same costs. -/
theorem rationed_pairing_agree :
    (∃ s r, Simplex.solve ⟨0, 50⟩ rationed.toProgram = .ok s ∧
      Transport.solve ⟨0, 50⟩ rationed = .ok r ∧ s.value = some r.totalCost) ∧
    ∃ r a, Transport.solve ⟨0, 50⟩ pairing.asShipping = .ok r ∧
      Hungarian.solve ⟨0, 50⟩ pairing = .ok a ∧ a.totalCost = r.totalCost := by
  have hvalid : rationed.violations = [] := by decide +kernel
  have hprogram : ∃ s, Simplex.solve ⟨0, 50⟩ rationed.toProgram = .ok s ∧ s.status = .optimal := by
    apply exists_ok_of_map
    decide +kernel
  obtain ⟨s, hs, hsopt⟩ := hprogram
  obtain ⟨r, hr, hropt⟩ := rationed_planned
  obtain ⟨r', hr', hropt'⟩ := pairing_planned
  obtain ⟨hproblems, hmatrices⟩ := engines_agree
  obtain ⟨a, ha, hcost⟩ := hmatrices pairing ⟨0, 50⟩ 50 r' hr' hropt'
  exact ⟨⟨s, r, hs, hr, (hproblems rationed hvalid).2 50 50 s r hs hsopt hr hropt⟩,
    ⟨r', a, hr', ha, hcost⟩⟩

end LeastCost.Engines
