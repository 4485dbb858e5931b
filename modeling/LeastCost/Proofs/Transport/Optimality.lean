import LeastCost.Proofs.Transport.Balancing
import LeastCost.Proofs.Transport.Loop

/-! # Least plans

Where no reduced cost is negative, potentials that price the basic cells are a lower bound that
the plan attains. Every step of the improvement keeps a forest that ships what is to be shipped,
so an optimal plan is a least one, of the balanced network and of the problem.
-/

namespace LeastCost.Transport

open scoped BigOperators
open Transportation (Plan Problem)

variable {m n : Nat} {net : Network Rat m n} {b : Basis Rat m n} {p : Problem Rat}
  {y : Fin m → Fin n → Rat}

theorem shippingCost_eq_totals (net : Network Rat m n) (q : Potentials Rat m n)
    (y : Fin m → Fin n → Rat) :
    net.shippingCost y = ∑ i, ∑ j, y i j * q.reduced net (i, j) +
      (∑ i, (∑ j, y i j) * q.row i + ∑ j, (∑ i, y i j) * q.column j) := by
  have hcolumn : ∑ j, (∑ i, y i j) * q.column j = ∑ i, ∑ j, y i j * q.column j := by
    rw [Finset.sum_comm]
    exact Finset.sum_congr rfl fun j _ => Finset.sum_mul ..
  have hrow : ∑ i, (∑ j, y i j) * q.row i = ∑ i, ∑ j, y i j * q.row i :=
    Finset.sum_congr rfl fun i _ => Finset.sum_mul ..
  rw [hcolumn, hrow, ← Finset.sum_add_distrib, ← Finset.sum_add_distrib]
  refine Finset.sum_congr rfl fun i _ => ?_
  rw [← Finset.sum_add_distrib, ← Finset.sum_add_distrib]
  refine Finset.sum_congr rfl fun j _ => ?_
  unfold Potentials.reduced
  ring

theorem shippingCost_eq (q : Potentials Rat m n) (h : net.Meets y) :
    net.shippingCost y = ∑ i, ∑ j, y i j * q.reduced net (i, j) +
      (∑ i, net.supply i * q.row i + ∑ j, net.demand j * q.column j) := by
  rw [shippingCost_eq_totals net q]
  simp only [h.rows, h.columns]

namespace Basis

theorem Ships.meets (h : b.Ships net) : net.Meets fun i j => b.flow (i, j) :=
  ⟨fun i j => h.nonneg (i, j), fun i => h.total (.inl i), fun j => h.total (.inr j)⟩

theorem reduced_eq_zero {q : Potentials Rat m n} (hforest : (cellGraph b.basics).IsAcyclic)
    (hq : b.potentials? net = some q) {c : Cell m n} (hc : b.isBasic c = true) :
    q.reduced net c = 0 := by
  rw [Potentials.reduced, ← potentials_prices hforest hq hc]
  ring

theorem reduced_nonneg {q : Potentials Rat m n} (h : b.enteringCell net 0 q = none)
    {c : Cell m n} (hc : b.isBasic c = false) : 0 ≤ q.reduced net c := by
  have hnil := Selection.firstLeast_eq_none_iff.mp h
  rw [List.filter_eq_nil_iff] at hnil
  simpa [hc] using hnil c (Grid.mem_cells c)

end Basis

/-- The potentials are undercut by no cost, and price the amounts of the nodes at the total. -/
structure Potentials.Certify (q : Potentials Rat m n) (net : Network Rat m n) (total : Rat) :
    Prop where
  reduced_nonneg : ∀ c, 0 ≤ q.reduced net c
  total_eq : total = ∑ i, net.supply i * q.row i + ∑ j, net.demand j * q.column j

/-- No amounts cost less than the total of potentials that no cost undercuts. -/
theorem Potentials.Certify.le {q : Potentials Rat m n} {total : Rat} (h : q.Certify net total)
    (hy : net.Meets y) : total ≤ net.shippingCost y := by
  rw [h.total_eq, shippingCost_eq q hy]
  exact le_add_of_nonneg_left (Finset.sum_nonneg fun i _ => Finset.sum_nonneg fun j _ =>
    mul_nonneg (hy.nonneg i j) (h.reduced_nonneg (i, j)))

namespace Basis

/-- Potentials without a cell to enter certify the cost of the plan. -/
theorem Ships.certify (h : b.Ships net) (hforest : (cellGraph b.basics).IsAcyclic)
    {q : Potentials Rat m n} (hq : b.potentials? net = some q)
    (hentering : b.enteringCell net 0 q = none) :
    q.Certify net (net.shippingCost fun i j => b.flow (i, j)) := by
  constructor
  · intro c
    cases hc : b.isBasic c with
    | true => exact (reduced_eq_zero hforest hq hc).ge
    | false => exact reduced_nonneg hentering hc
  · have hflows : ∑ i, ∑ j, b.flow (i, j) * q.reduced net (i, j) = 0 := by
      refine Finset.sum_eq_zero fun i _ => Finset.sum_eq_zero fun j _ => ?_
      cases hc : b.isBasic (i, j) with
      | true => rw [reduced_eq_zero hforest hq hc, mul_zero]
      | false => rw [h.idle _ hc, zero_mul]
    rw [shippingCost_eq q h.meets, hflows, zero_add]

end Basis

theorem initialBasis_acyclic (net : Network Rat m n) (tolerance : Rat) :
    (cellGraph (initialBasis net tolerance).basics).IsAcyclic :=
  Basis.complete_acyclic net (vogel_acyclic net tolerance)

/-- Every step keeps a forest that ships what is to be shipped, and at an optimum potentials
certify its cost. -/
theorem improve_certify (h : b.Ships net) (hforest : (cellGraph b.basics).IsAcyclic)
    {budget steps : Nat} {r : Improved Rat m n} (hr : improve net 0 0 budget steps b = .ok r)
    (hoptimal : r.isOptimal = true) : r.basis.Ships net ∧
      ∃ q : Potentials Rat m n,
        q.Certify net (net.shippingCost fun i j => r.basis.flow (i, j)) := by
  obtain ⟨⟨hships, hacyclic⟩, hlast⟩ := improve_induction
    (motive := fun b => b.Ships net ∧ (cellGraph b.basics).IsAcyclic)
    (fun b c path hb hc hpath =>
      ⟨hb.1.shiftAlongLoop hc hpath, Basis.shiftAlongLoop_acyclic hb.2 hc hpath⟩)
    ⟨h, hforest⟩ hr
  obtain ⟨q, hq, hentering⟩ := hlast hoptimal
  exact ⟨hships, q, hships.certify hacyclic hq hentering⟩

theorem optimizeNetwork_certify (h : net.Balanced) {limit : Nat} {r : Improved Rat m n}
    (hr : optimizeNetwork ⟨0, limit⟩ net = .ok r) (hoptimal : r.isOptimal = true) :
    r.basis.Ships net ∧ ∃ q : Potentials Rat m n,
      q.Certify net (net.shippingCost fun i j => r.basis.flow (i, j)) := by
  rw [optimizeNetwork, zero_mul] at hr
  exact improve_certify (initialBasis_ships h) (initialBasis_acyclic net 0) hr hoptimal

section Lists

theorem toList_eq_ofFn {β : Type} (f : Family β n) : f.toList = List.ofFn f.get := by
  apply List.ext_getElem
  · simp [Family.toList]
  · intro i hi hi'
    simp [Family.toList, Family.get_eq_getElem]

theorem take_ofFn {β : Type} {k : Nat} (h : k ≤ n) (f : Fin n → β) :
    (List.ofFn f).take k = List.ofFn fun i : Fin k => f (i.castLE h) := by
  apply List.ext_getElem
  · simpa using h
  · intro i hi hi'
    simp

theorem toLists_take (g : Grid Rat m n) {k l : Nat} (hm : k ≤ m) (hn : l ≤ n) :
    (g.toLists.take k).map (fun row => (row.take l).map (Scalar.clean 0)) =
      List.ofFn fun i : Fin k => List.ofFn fun j : Fin l => g (i.castLE hm) (j.castLE hn) := by
  rw [Grid.toLists, toList_eq_ofFn, List.map_ofFn, take_ofFn hm, List.map_ofFn]
  refine congrArg List.ofFn (funext fun i => ?_)
  simp only [Function.comp_apply, toList_eq_ofFn, take_ofFn hn, List.map_ofFn]
  refine congrArg List.ofFn (funext fun j => ?_)
  simp only [Function.comp_apply, Scalar.clean_zero]
  rfl

theorem costs_eq_ofFn (h : p.WellFormed) : p.costs =
    List.ofFn fun i : Fin p.sources => List.ofFn fun j : Fin p.destinations =>
      p.cost i.val j.val := by
  apply List.ext_getElem
  · simpa using h.costs_length
  · intro i hi hi'
    have hrow := (h.rows_fit _ (List.getElem_mem hi)).1
    apply List.ext_getElem
    · simpa using hrow
    · intro j hj hj'
      simp [Problem.cost, List.getElem?_eq_getElem hi, List.getElem?_eq_getElem hj]

theorem zipWith_ofFn {β γ δ : Type} (f : β → γ → δ) (u : Fin n → β) (v : Fin n → γ) :
    (List.ofFn u).zipWith f (List.ofFn v) = List.ofFn fun i => f (u i) (v i) := by
  apply List.ext_getElem
  · simp
  · intro i hi hi'
    simp

theorem shippingCost_ofFn (x costs : Fin m → Fin n → Rat) :
    Transport.shippingCost (List.ofFn fun i => List.ofFn (x i))
      (List.ofFn fun i => List.ofFn (costs i)) = ∑ i, ∑ j, x i j * costs i j := by
  rw [Transport.shippingCost, Scalar.sum_rat, List.zip, zipWith_ofFn, List.flatMap_def,
    List.sum_flatten, List.map_ofFn, List.map_ofFn, List.sum_ofFn]
  refine Finset.sum_congr rfl fun i _ => ?_
  simp only [Function.comp_apply, zipWith_ofFn, List.sum_ofFn]

end Lists

section Plans

variable {limit : Nat} {balance : Balance Rat} {r : Improved Rat m n} {plan : Plan Rat}

theorem flows_planOf (hr : r.isOptimal = true) (limit : Nat) (balance : Balance Rat)
    (hm : p.sources ≤ m) (hn : p.destinations ≤ n) :
    (planOf ⟨0, limit⟩ p balance r).flows = List.ofFn fun i : Fin p.sources =>
      List.ofFn fun j : Fin p.destinations => r.basis.flow (i.castLE hm, j.castLE hn) := by
  rw [planOf, if_pos hr]
  exact toLists_take r.basis.flows hm hn

theorem totalCost_planOf (hr : r.isOptimal = true) (limit : Nat) (p : Problem Rat)
    (balance : Balance Rat) :
    (planOf ⟨0, limit⟩ p balance r).totalCost =
      Transport.shippingCost (planOf ⟨0, limit⟩ p balance r).flows p.costs := by
  rw [planOf, if_pos hr]

theorem isOptimal_of_planOf (h : (planOf ⟨0, limit⟩ p balance r).status = .optimal) :
    r.isOptimal = true := by
  by_contra hr
  rw [planOf, if_neg hr] at h
  cases h

def realFlow (hm : p.sources ≤ m) (hn : p.destinations ≤ n) (b : Basis Rat m n)
    (i : Fin p.sources) (j : Fin p.destinations) : Rat := b.flow (i.castLE hm, j.castLE hn)

/-- The optimal plan that is made of a balanced network, with potentials of the network that
certify its cost. -/
theorem planOf_certify (h : p.WellFormed) (hnet : net.Extends p)
    (hr : optimizeNetwork ⟨0, limit⟩ net = .ok r) (hoptimal : r.isOptimal = true) :
    (planOf ⟨0, limit⟩ p balance r).flows = List.ofFn (fun i =>
        List.ofFn (realFlow hnet.sources_le hnet.destinations_le r.basis i)) ∧
      p.Meets (realFlow hnet.sources_le hnet.destinations_le r.basis) ∧
      (planOf ⟨0, limit⟩ p balance r).totalCost =
        p.shippingCost (realFlow hnet.sources_le hnet.destinations_le r.basis) ∧
      ∃ q : Potentials Rat m n, q.Certify net (planOf ⟨0, limit⟩ p balance r).totalCost := by
  obtain ⟨hships, q, hq⟩ := optimizeNetwork_certify hnet.balanced hr hoptimal
  obtain ⟨hmeets, hcost⟩ := hnet.strip hships.meets
  have hflows := flows_planOf hoptimal limit balance hnet.sources_le hnet.destinations_le
  have htotal := totalCost_planOf hoptimal limit p balance
  rw [hflows, costs_eq_ofFn h, shippingCost_ofFn] at htotal
  refine ⟨hflows, hmeets, htotal, q, ?_⟩
  rw [htotal.trans hcost]
  exact hq

theorem planOf_unsurpassed (h : p.WellFormed) (hnet : net.Extends p)
    (hplan : (optimizeNetwork ⟨0, limit⟩ net).map (planOf ⟨0, limit⟩ p balance) = .ok plan)
    (hoptimal : plan.status = .optimal) :
    ∃ x : Fin p.sources → Fin p.destinations → Rat,
      plan.flows = List.ofFn (fun i => List.ofFn (x i)) ∧ p.Meets x ∧
      plan.totalCost = p.shippingCost x ∧
      ∀ y, p.Meets y → plan.totalCost ≤ p.shippingCost y := by
  obtain ⟨r, hr, rfl⟩ := map_eq_ok hplan
  obtain ⟨hflows, hmeets, htotal, q, hq⟩ :=
    planOf_certify h hnet hr (isOptimal_of_planOf hoptimal)
  refine ⟨_, hflows, hmeets, htotal, fun y hy => ?_⟩
  obtain ⟨z, hz, hzcost⟩ := hnet.extend hy
  exact (hq.le hz).trans_eq hzcost

end Plans

theorem plan_of_demand_lt (h : p.totalDemand < p.totalSupply) (limit : Nat) :
    plan ⟨0, limit⟩ p =
      (optimizeNetwork ⟨0, limit⟩
        ((Network.ofProblem p).withDestination (p.totalSupply - p.totalDemand))).map
      (planOf ⟨0, limit⟩ p (.surplus (p.totalSupply - p.totalDemand))) := by
  simp only [plan, Balance.ofProblem, zero_mul, sub_pos, h, if_true]

theorem plan_of_supply_lt (h : p.totalSupply < p.totalDemand) (limit : Nat) :
    plan ⟨0, limit⟩ p =
      (optimizeNetwork ⟨0, limit⟩
        ((Network.ofProblem p).withSource (p.totalDemand - p.totalSupply))).map
      (planOf ⟨0, limit⟩ p (.shortage (p.totalDemand - p.totalSupply))) := by
  simp only [plan, Balance.ofProblem, zero_mul, neg_sub, sub_pos, h, h.not_gt, if_true, if_false]

theorem plan_of_eq (h : p.totalSupply = p.totalDemand) (limit : Nat) :
    plan ⟨0, limit⟩ p =
      (optimizeNetwork ⟨0, limit⟩ (Network.ofProblem p)).map (planOf ⟨0, limit⟩ p .even) := by
  simp only [plan, Balance.ofProblem, zero_mul, neg_sub, sub_pos, h, lt_irrefl, if_false]

/-- An optimal plan without tolerance meets its problem: amounts that are not negative use up
the lesser total and exceed no supply and no demand. No such amounts cost less. -/
theorem optimal_plan_unsurpassed {limit : Nat} {r : Plan Rat}
    (h : solve ⟨0, limit⟩ p = .ok r) (hoptimal : r.status = .optimal) :
    ∃ x : Fin p.sources → Fin p.destinations → Rat,
      r.flows = List.ofFn (fun i => List.ofFn (x i)) ∧ p.Meets x ∧
      r.totalCost = p.shippingCost x ∧ ∀ y, p.Meets y → r.totalCost ≤ p.shippingCost y := by
  obtain ⟨hvalid, hplan⟩ := accept_eq_ok_iff.mp h
  have hwf := Problem.violations_eq_nil_iff.mp hvalid
  rcases lt_trichotomy p.totalDemand p.totalSupply with hlt | heq | hgt
  · rw [plan_of_demand_lt hlt] at hplan
    exact planOf_unsurpassed hwf (Network.withDestination_extends hwf hlt) hplan hoptimal
  · rw [plan_of_eq heq.symm] at hplan
    exact planOf_unsurpassed hwf (Network.ofProblem_extends hwf heq.symm) hplan hoptimal
  · rw [plan_of_supply_lt hgt] at hplan
    exact planOf_unsurpassed hwf (Network.withSource_extends hwf hgt) hplan hoptimal

/-- More supply than demand, a destination without demand, and costs that make the first plan a
poor one. -/
def deliveries : Problem Rat :=
  { supply := [8, 8, 5]
    demand := [0, 6, 9]
    costs := [[0, 1, 5], [5, 4, 3], [3, 7, 6]] }

def deliveriesPlan : Plan Rat :=
  { status := .optimal
    message := "Optimal shipment plan found; 6 units of surplus supply stay at the sources"
    flows := [[0, 6, 1], [0, 0, 8], [0, 0, 0]]
    totalCost := 35
    statistics := ⟨3, 0, 3, 3⟩ }

theorem deliveries_unsurpassed : solve ⟨0, 20⟩ deliveries = .ok deliveriesPlan ∧
    ∀ y, deliveries.Meets y → 35 ≤ deliveries.shippingCost y := by
  have hplan : plan ⟨0, 20⟩ deliveries = .ok deliveriesPlan := by
    rw [plan_of_demand_lt (by decide +kernel), optimizeNetwork, initialBasis,
      Basis.complete_of_size_ge _ (by decide +kernel)]
    decide +kernel
  have hs : solve ⟨0, 20⟩ deliveries = .ok deliveriesPlan :=
    accept_eq_ok_iff.mpr ⟨by decide +kernel, hplan⟩
  obtain ⟨-, -, -, -, hleast⟩ := optimal_plan_unsurpassed hs rfl
  exact ⟨hs, hleast⟩

end LeastCost.Transport
