import LeastCost.Proofs.Transport.Balanced
import LeastCost.Proofs.Transport.WholeDraft

/-! # Plans of whole amounts

The potentials of whole costs are whole, and so are the flows after every step on whole flows.
Each comparison with the tolerance is therefore the comparison without it, where the tolerance is
below one even relative to the totals and to the costs. So the plan is the plan without
tolerance, and its flows are whole.
-/

namespace LeastCost.Transportation

/-- All supplies, demands and costs are integers. -/
structure Problem.Integral (p : Problem Rat) : Prop where
  supply : ∀ v ∈ p.supply, Whole v
  demand : ∀ v ∈ p.demand, Whole v
  costs : ∀ row ∈ p.costs, ∀ v ∈ row, Whole v

end LeastCost.Transportation

namespace LeastCost.Transport

open Transportation (Plan Problem)

variable {m n : Nat} {net : Network Rat m n} {b : Basis Rat m n} {c d : Cell m n}
  {path : List (Cell m n)} {q : Potentials Rat m n} {tolerance threshold amount : Rat}

section Potentials

theorem whole_prices (h : net.Whole) {prices : Family (Option Rat) (m + n)}
    (hprices : b.prices? net = some prices) {x : Node m n} {v : Rat}
    (hv : prices x.number = some v) : Whole v :=
  prices_induction (motive := fun _ v => Whole v) (fun _ _ => Whole.zero)
    (fun c _ _ _ _ _ hw => (h.cost c.1 c.2).sub hw) hprices hv

theorem whole_reduced (h : net.Whole) (hq : b.potentials? net = some q) (c : Cell m n) :
    Whole (q.reduced net c) := by
  obtain ⟨prices, hprices, hrows, hcolumns⟩ := exists_prices_of_potentials hq
  have hrow : Whole (q.row c.1) := whole_prices h hprices (x := .inl c.1) (hrows c.1)
  have hcolumn : Whole (q.column c.2) := whole_prices h hprices (x := .inr c.2) (hcolumns c.2)
  exact ((h.cost c.1 c.2).sub hrow).sub hcolumn

theorem enteringCell_eq (h0 : 0 ≤ threshold) (h1 : threshold < 1) (h : net.Whole)
    (hq : b.potentials? net = some q) :
    b.enteringCell net threshold q = b.enteringCell net 0 q := by
  unfold Basis.enteringCell
  congr 1
  refine List.filter_congr fun c _ => ?_
  rw [neg_zero, decide_eq_decide.mpr ((whole_reduced h hq c).lt_neg_iff h0 h1)]

end Potentials

namespace Basis

theorem Whole.alternate (h : b.Whole) (ha : LeastCost.Whole amount) (path : List (Cell m n)) :
    (alternate amount path b).Whole := by
  induction path using donors.induct generalizing b with
  | case1 => exact h
  | case2 donor => exact h.adjust (f := (· - amount)) ((h donor).sub ha)
  | case3 donor taker rest ih =>
    have hdonor : (b.adjust donor (· - amount)).Whole :=
      h.adjust (f := (· - amount)) ((h donor).sub ha)
    exact ih (hdonor.adjust (f := (· + amount)) ((hdonor taker).add ha))

theorem Whole.shiftAlongLoop (h : b.Whole) (tolerance : Rat) (c : Cell m n)
    (path : List (Cell m n)) : (b.shiftAlongLoop tolerance c path).2.Whole := by
  cases hd : b.leavingCell tolerance path with
  | none =>
    simp only [Basis.shiftAlongLoop, hd]
    exact h
  | some d =>
    intro e
    have halternate := h.alternate (h d) path
    rw [flow_shiftAlongLoop hd]
    split
    · exact LeastCost.Whole.zero
    · split
      · exact (halternate c).add (h d)
      · exact halternate e

theorem Whole.leavingCell_eq (h0 : 0 ≤ tolerance) (h1 : tolerance < 1) (h : b.Whole)
    (path : List (Cell m n)) : b.leavingCell tolerance path = b.leavingCell 0 path := by
  apply Selection.choose_congr
  intro next _ best _
  have hless : b.flow next < b.flow best - tolerance ↔ b.flow next < b.flow best - 0 := by
    rw [lt_sub_iff_add_lt, (h next).add_lt_iff h0 h1 (h best), sub_zero]
  have htie : Scalar.abs (b.flow next - b.flow best) ≤ tolerance ↔
      Scalar.abs (b.flow next - b.flow best) ≤ 0 := by
    rw [Scalar.abs_rat]
    exact ((h next).sub (h best)).abs.le_iff h0 h1
  rw [decide_eq_decide.mpr hless, decide_eq_decide.mpr htie]

theorem Whole.shiftAlongLoop_eq (h0 : 0 ≤ tolerance) (h1 : tolerance < 1) (h : b.Whole)
    (c : Cell m n) (path : List (Cell m n)) :
    b.shiftAlongLoop tolerance c path = b.shiftAlongLoop 0 c path := by
  unfold Basis.shiftAlongLoop
  rw [h.leavingCell_eq h0 h1]

end Basis

section Improvement

/-- Every step on whole flows is the step without tolerance. -/
theorem improve_eq (h0 : 0 ≤ tolerance) (h1 : tolerance < 1) (h0' : 0 ≤ threshold)
    (h1' : threshold < 1) (h : net.Whole) (hb : b.Whole) (budget steps : Nat) :
    improve net tolerance threshold budget steps b = improve net 0 0 budget steps b := by
  induction budget generalizing b steps with
  | zero =>
    unfold improve
    cases hq : b.potentials? net with
    | none => rfl
    | some q => simp only [enteringCell_eq h0' h1' h hq]
  | succ budget ih =>
    unfold improve
    cases hq : b.potentials? net with
    | none => rfl
    | some q =>
      simp only [enteringCell_eq h0' h1' h hq, hb.shiftAlongLoop_eq h0 h1]
      cases b.enteringCell net 0 q with
      | none => rfl
      | some c =>
        dsimp only
        cases b.path? c with
        | none => rfl
        | some path => exact ih (hb.shiftAlongLoop 0 c path) (steps + 1)

variable {limit : Nat} {r : Improved Rat m n}

theorem optimizeNetwork_eq (h0 : 0 ≤ tolerance) (h1 : tolerance < 1)
    (hscale : tolerance * (1 + net.maxAbsCost) < 1) (hcost : 0 ≤ net.maxAbsCost) (h : net.Whole) :
    optimizeNetwork ⟨tolerance, limit⟩ net = optimizeNetwork ⟨0, limit⟩ net := by
  have hthreshold : 0 ≤ tolerance * (1 + net.maxAbsCost) := by positivity
  rw [optimizeNetwork, optimizeNetwork, zero_mul, initialBasis_eq h0 h1 h]
  exact improve_eq h0 h1 hthreshold hscale h (initialBasis_whole h) limit 0

theorem optimizeNetwork_whole (h : net.Whole) (hr : optimizeNetwork ⟨0, limit⟩ net = .ok r) :
    r.basis.Whole :=
  (improve_induction (motive := Basis.Whole) (fun _ c path hb _ _ => hb.shiftAlongLoop 0 c path)
    (initialBasis_whole h) hr).1

end Improvement

section Problems

open Network

variable {p : Problem Rat} {limit : Nat} {r : Improved Rat m n} {motive : Rat → Prop}

theorem maxAbsCost_induction (hzero : motive 0) (hcost : ∀ i j, motive |net.costs i j|) :
    motive net.maxAbsCost := by
  unfold maxAbsCost
  apply List.foldlRecOn (motive := motive) _ _ hzero
  intro top htop c _
  dsimp only
  rw [Scalar.max_rat, Scalar.abs_rat]
  rcases max_choice top |net.costs c.1 c.2| with h | h
  · exact h.symm ▸ htop
  · exact h.symm ▸ hcost c.1 c.2

theorem getD_induction {β : Type} {motive : β → Prop} {l : List β} {default : β}
    (hdefault : motive default) (h : ∀ v ∈ l, motive v) (i : Nat) : motive (l.getD i default) := by
  rw [List.getD_eq_getElem?_getD]
  cases hi : l[i]? with
  | none => exact hdefault
  | some v => exact h v (List.mem_of_getElem? hi)

theorem cost_induction (hzero : motive 0) (hcost : ∀ row ∈ p.costs, ∀ v ∈ row, motive v)
    (i j : Nat) : motive (p.cost i j) := by
  have hrow : ∀ v ∈ p.costs.getD i [], motive v :=
    getD_induction (motive := fun row => ∀ v ∈ row, motive v) (by simp) hcost i
  exact getD_induction hzero hrow j

theorem balanced_costs (hzero : motive 0) (hcost : ∀ row ∈ p.costs, ∀ v ∈ row, motive v) :
    ∀ i j, motive ((balanced 0 p).network.costs i j) := by
  have hproblem : ∀ i j, motive ((ofProblem p).costs i j) := fun i j =>
    (costs_ofProblem i j).symm ▸ cost_induction hzero hcost i.val j.val
  apply balanced_cases (motive := fun net => ∀ i j, motive (net.network.costs i j))
  · exact fun _ => hproblem
  · intro _ i j
    induction j using Fin.lastCases with
    | last => rwa [costs_withDestination_last]
    | cast j =>
      rw [costs_withDestination_castSucc]
      exact hproblem i j
  · intro _ i j
    induction i using Fin.lastCases with
    | last => rwa [costs_withSource_last]
    | cast i =>
      rw [costs_withSource_castSucc]
      exact hproblem i j

theorem whole_difference (h : p.Integral) : Whole (p.totalSupply - p.totalDemand) := by
  rw [Problem.totalSupply, Problem.totalDemand, Scalar.sum_rat, Scalar.sum_rat]
  exact (Whole.sum h.supply).sub (Whole.sum h.demand)

theorem balanced_amount (h : p.Integral) : ∀ x, Whole ((balanced 0 p).network.amount x) := by
  have hsupply : ∀ i, Whole ((ofProblem p).supply i) := fun i =>
    (supply_ofProblem i).symm ▸ h.supply _ (List.get_mem ..)
  have hdemand : ∀ j, Whole ((ofProblem p).demand j) := fun j =>
    (demand_ofProblem j).symm ▸ h.demand _ (List.get_mem ..)
  apply balanced_cases (motive := fun net => ∀ x, Whole (net.network.amount x))
  · rintro - (i | j)
    · exact hsupply i
    · exact hdemand j
  · rintro - (i | j)
    · exact hsupply i
    · induction j using Fin.lastCases with
      | last =>
        rw [amount_inr, demand_withDestination_last]
        exact whole_difference h
      | cast j =>
        rw [amount_inr, demand_withDestination_castSucc]
        exact hdemand j
  · rintro - (i | j)
    · induction i using Fin.lastCases with
      | last =>
        rw [amount_inl, supply_withSource_last, ← neg_sub]
        exact (whole_difference h).neg
      | cast i =>
        rw [amount_inl, supply_withSource_castSucc]
        exact hsupply i
    · exact hdemand j

theorem balanced_whole (h : p.Integral) : (balanced 0 p).network.Whole :=
  ⟨balanced_amount h, balanced_costs Whole.zero h.costs⟩

/-- The totals of integral problems are equal or differ by one at least. -/
theorem balance_eq (h : p.Integral) (h0 : 0 ≤ tolerance)
    (htotal : 0 ≤ max p.totalSupply p.totalDemand)
    (h1 : tolerance * (1 + max p.totalSupply p.totalDemand) < 1) :
    Balance.ofProblem tolerance p = Balance.ofProblem 0 p := by
  have hmargin : 0 ≤ tolerance * (1 + max p.totalSupply p.totalDemand) := by positivity
  have hdifference := whole_difference h
  simp only [Balance.ofProblem, Scalar.max_rat, zero_mul, hdifference.lt_iff hmargin h1,
    hdifference.neg.lt_iff hmargin h1]

theorem exists_eq_of_mem_toLists {g : Grid Rat m n} {row : List Rat} {v : Rat}
    (hrow : row ∈ g.toLists) (hv : v ∈ row) : ∃ i j, v = g i j := by
  rw [Grid.toLists, toList_eq_ofFn, List.map_ofFn] at hrow
  obtain ⟨i, rfl⟩ := List.mem_ofFn.mp hrow
  rw [Function.comp_apply, toList_eq_ofFn] at hv
  obtain ⟨j, rfl⟩ := List.mem_ofFn.mp hv
  exact ⟨i, j, rfl⟩

theorem planOf_eq (h0 : 0 ≤ tolerance) (h1 : tolerance < 1) (hr : r.basis.Whole)
    (balance : Balance Rat) :
    planOf ⟨tolerance, limit⟩ p balance r = planOf ⟨0, limit⟩ p balance r := by
  have hflows : (r.basis.flows.toLists.take p.sources).map
        (fun row => (row.take p.destinations).map (Scalar.clean tolerance)) =
      (r.basis.flows.toLists.take p.sources).map
        (fun row => (row.take p.destinations).map (Scalar.clean 0)) := by
    refine List.map_congr_left fun row hrow => List.map_congr_left fun v hv => ?_
    obtain ⟨i, j, rfl⟩ :=
      exists_eq_of_mem_toLists (List.mem_of_mem_take hrow) (List.mem_of_mem_take hv)
    have hflow : Whole (r.basis.flows i j) := hr (i, j)
    rw [hflow.clean_eq h0 h1, Scalar.clean_zero]
  simp only [planOf, hflows]

/-- On integral data the plan is the plan without tolerance. -/
theorem plan_eq_exact (h : p.Integral) (hwf : p.WellFormed) (h0 : 0 ≤ tolerance)
    (htotal : tolerance * (1 + max p.totalSupply p.totalDemand) < 1)
    (hcost : ∀ row ∈ p.costs, ∀ v ∈ row, tolerance * (1 + |v|) < 1) :
    plan ⟨tolerance, limit⟩ p = plan ⟨0, limit⟩ p := by
  have hsupply : 0 ≤ p.totalSupply := by
    rw [Problem.totalSupply, Scalar.sum_rat]
    exact List.sum_nonneg fun v hv => not_lt.mp (hwf.supply_not_neg v hv)
  have hmax : 0 ≤ max p.totalSupply p.totalDemand := le_max_of_le_left hsupply
  have h1 : tolerance < 1 := by nlinarith
  have hnet := balanced_whole h
  have hscale : 0 ≤ (balanced 0 p).network.maxAbsCost ∧
      tolerance * (1 + (balanced 0 p).network.maxAbsCost) < 1 := by
    apply maxAbsCost_induction (motive := fun v => 0 ≤ v ∧ tolerance * (1 + v) < 1)
    · simpa using h1
    · intro i j
      refine ⟨abs_nonneg _, balanced_costs (motive := fun v => tolerance * (1 + |v|) < 1) ?_ hcost
        i j⟩
      simpa using h1
  rw [plan_eq, plan_eq]
  dsimp only
  rw [balance_eq h h0 hmax htotal]
  have hbalanced : balanced tolerance p = balanced 0 p := by
    simp only [balanced, balance_eq h h0 hmax htotal]
  rw [hbalanced, optimizeNetwork_eq h0 h1 hscale.2 hscale.1 hnet]
  cases hr : optimizeNetwork ⟨0, limit⟩ (balanced 0 p).network with
  | error fault => rfl
  | ok r => exact congrArg Except.ok (planOf_eq h0 h1 (optimizeNetwork_whole hnet hr) _)

end Problems

end LeastCost.Transport
