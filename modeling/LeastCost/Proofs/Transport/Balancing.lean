import Mathlib.Algebra.BigOperators.Fin
import LeastCost.Proofs.Problem.Feasible
import LeastCost.Proofs.Problem.WellFormed
import LeastCost.Proofs.Transport.Shipping

/-! # Balanced networks

The network that is planned for a problem is balanced. What meets its amounts meets those of the
problem once the dummy node is left out, at the same cost, and all that meets the problem comes
about in this way.
-/

namespace LeastCost.Transport

open scoped BigOperators
open Transportation (Problem)

variable {m n : Nat} {net : Network Rat m n} {p : Problem Rat} {y : Fin m → Fin n → Rat}

namespace Network

/-- Amounts that use up the supply of every source and the demand of every destination. -/
structure Meets (net : Network Rat m n) (y : Fin m → Fin n → Rat) : Prop where
  nonneg : ∀ i j, 0 ≤ y i j
  rows : ∀ i, ∑ j, y i j = net.supply i
  columns : ∀ j, ∑ i, y i j = net.demand j

def shippingCost (net : Network Rat m n) (y : Fin m → Fin n → Rat) : Rat :=
  ∑ i, ∑ j, y i j * net.costs i j

/-- A balanced network that stands for a problem, with the real nodes before the dummy node. -/
structure Extends (net : Network Rat m n) (p : Problem Rat) : Prop where
  sources_le : p.sources ≤ m
  destinations_le : p.destinations ≤ n
  balanced : net.Balanced
  strip : ∀ {y}, net.Meets y →
    p.Meets (fun i j => y (i.castLE sources_le) (j.castLE destinations_le)) ∧
      p.shippingCost (fun i j => y (i.castLE sources_le) (j.castLE destinations_le)) =
        net.shippingCost y
  extend : ∀ {x}, p.Meets x → ∃ y, net.Meets y ∧ net.shippingCost y = p.shippingCost x

section OfProblem

@[simp] theorem supply_ofProblem (i : Fin p.sources) :
    (ofProblem p).supply i = p.supplyAt i := Family.get_ofFn _ i

@[simp] theorem demand_ofProblem (j : Fin p.destinations) :
    (ofProblem p).demand j = p.demandAt j := Family.get_ofFn _ j

@[simp] theorem costs_ofProblem (i : Fin p.sources) (j : Fin p.destinations) :
    (ofProblem p).costs i j = p.cost i.val j.val := Grid.get_ofFn _ i j

theorem sum_supply (p : Problem Rat) : ∑ i, (ofProblem p).supply i = p.totalSupply := by
  rw [Problem.totalSupply, Scalar.sum_rat, ← Fin.sum_univ_getElem]
  exact Finset.sum_congr rfl fun i _ => supply_ofProblem i

theorem sum_demand (p : Problem Rat) : ∑ j, (ofProblem p).demand j = p.totalDemand := by
  rw [Problem.totalDemand, Scalar.sum_rat, ← Fin.sum_univ_getElem]
  exact Finset.sum_congr rfl fun j _ => demand_ofProblem j

theorem amount_ofProblem_nonneg (h : p.WellFormed) (x : Node p.sources p.destinations) :
    0 ≤ (ofProblem p).amount x := by
  rcases x with i | j
  · rw [amount_inl, supply_ofProblem]
    exact not_lt.mp (h.supply_not_neg _ (List.get_mem ..))
  · rw [amount_inr, demand_ofProblem]
    exact not_lt.mp (h.demand_not_neg _ (List.get_mem ..))

theorem shippingCost_ofProblem (x : Fin p.sources → Fin p.destinations → Rat) :
    (ofProblem p).shippingCost x = p.shippingCost x := by
  simp only [Problem.shippingCost, shippingCost, costs_ofProblem]

end OfProblem

section Dummy

variable {amount : Rat} {i : Fin m} {j : Fin n} {x : Fin m → Fin n → Rat}

@[simp] theorem supply_withDestination :
    (net.withDestination amount).supply i = net.supply i := rfl

@[simp] theorem demand_withDestination_castSucc :
    (net.withDestination amount).demand j.castSucc = net.demand j :=
  Family.get_push_castSucc ..

@[simp] theorem demand_withDestination_last :
    (net.withDestination amount).demand (Fin.last n) = amount :=
  Family.get_push_last ..

@[simp] theorem costs_withDestination_castSucc :
    (net.withDestination amount).costs i j.castSucc = net.costs i j := by
  simp [withDestination]

@[simp] theorem costs_withDestination_last :
    (net.withDestination amount).costs i (Fin.last n) = 0 := by
  simp [withDestination]

@[simp] theorem demand_withSource : (net.withSource amount).demand j = net.demand j := rfl

@[simp] theorem supply_withSource_castSucc :
    (net.withSource amount).supply i.castSucc = net.supply i :=
  Family.get_push_castSucc ..

@[simp] theorem supply_withSource_last :
    (net.withSource amount).supply (Fin.last m) = amount :=
  Family.get_push_last ..

@[simp] theorem costs_withSource_castSucc :
    (net.withSource amount).costs i.castSucc j = net.costs i j := by
  simp [withSource]

@[simp] theorem costs_withSource_last :
    (net.withSource amount).costs (Fin.last m) j = 0 := by
  simp [withSource]

theorem shippingCost_withDestination (y : Fin m → Fin (n + 1) → Rat) :
    (net.withDestination amount).shippingCost y = net.shippingCost fun i j => y i j.castSucc := by
  refine Finset.sum_congr rfl fun i _ => ?_
  rw [Fin.sum_univ_castSucc, costs_withDestination_last, mul_zero, add_zero]
  exact Finset.sum_congr rfl fun j _ => by rw [costs_withDestination_castSucc]

theorem shippingCost_withSource (y : Fin (m + 1) → Fin n → Rat) :
    (net.withSource amount).shippingCost y = net.shippingCost fun i => y i.castSucc := by
  unfold shippingCost
  rw [Fin.sum_univ_castSucc]
  simp only [costs_withSource_last, mul_zero, Finset.sum_const_zero, add_zero,
    costs_withSource_castSucc]

theorem withDestination_balanced (h : ∀ x, 0 ≤ net.amount x) (h0 : 0 ≤ amount)
    (hsum : ∑ i, net.supply i = ∑ j, net.demand j + amount) :
    (net.withDestination amount).Balanced := by
  constructor
  · rintro (i | j)
    · exact h (.inl i)
    · induction j using Fin.lastCases with
      | last => rwa [amount_inr, demand_withDestination_last]
      | cast j =>
        rw [amount_inr, demand_withDestination_castSucc]
        exact h (.inr j)
  · rw [Fin.sum_univ_castSucc, demand_withDestination_last]
    simp only [demand_withDestination_castSucc]
    exact hsum

theorem withSource_balanced (h : ∀ x, 0 ≤ net.amount x) (h0 : 0 ≤ amount)
    (hsum : ∑ j, net.demand j = ∑ i, net.supply i + amount) :
    (net.withSource amount).Balanced := by
  constructor
  · rintro (i | j)
    · induction i using Fin.lastCases with
      | last => rwa [amount_inl, supply_withSource_last]
      | cast i =>
        rw [amount_inl, supply_withSource_castSucc]
        exact h (.inl i)
    · exact h (.inr j)
  · rw [Fin.sum_univ_castSucc, supply_withSource_last]
    simp only [supply_withSource_castSucc]
    exact hsum.symm

/-- The dummy destination takes what amounts that meet every demand leave at the sources. -/
theorem meets_withDestination (h0 : ∀ i j, 0 ≤ x i j)
    (hrows : ∀ i, ∑ j, x i j ≤ net.supply i) (hcolumns : ∀ j, ∑ i, x i j = net.demand j)
    (hsum : ∑ i, net.supply i = ∑ j, net.demand j + amount) :
    (net.withDestination amount).Meets fun i =>
      Fin.lastCases (net.supply i - ∑ j, x i j) (x i) := by
  constructor
  · intro i j
    induction j using Fin.lastCases with
    | last => simpa using hrows i
    | cast j => simpa using h0 i j
  · intro i
    rw [Fin.sum_univ_castSucc]
    simp only [Fin.lastCases_castSucc, Fin.lastCases_last, add_sub_cancel]
    rfl
  · intro j
    induction j using Fin.lastCases with
    | last =>
      simp only [Fin.lastCases_last, Finset.sum_sub_distrib, demand_withDestination_last]
      rw [Finset.sum_comm, Finset.sum_congr rfl fun j _ => hcolumns j, hsum, add_sub_cancel_left]
    | cast j =>
      simp only [Fin.lastCases_castSucc, demand_withDestination_castSucc]
      exact hcolumns j

/-- The dummy source serves what amounts that use up every supply leave unmet. -/
theorem meets_withSource (h0 : ∀ i j, 0 ≤ x i j)
    (hrows : ∀ i, ∑ j, x i j = net.supply i) (hcolumns : ∀ j, ∑ i, x i j ≤ net.demand j)
    (hsum : ∑ j, net.demand j = ∑ i, net.supply i + amount) :
    (net.withSource amount).Meets
      (Fin.lastCases (fun j => net.demand j - ∑ i, x i j) x) := by
  constructor
  · intro i j
    induction i using Fin.lastCases with
    | last => simpa using hcolumns j
    | cast i => simpa using h0 i j
  · intro i
    induction i using Fin.lastCases with
    | last =>
      simp only [Fin.lastCases_last, Finset.sum_sub_distrib, supply_withSource_last]
      rw [Finset.sum_comm, Finset.sum_congr rfl fun i _ => hrows i, hsum, add_sub_cancel_left]
    | cast i =>
      simp only [Fin.lastCases_castSucc, supply_withSource_castSucc]
      exact hrows i
  · intro j
    rw [Fin.sum_univ_castSucc]
    simp only [Fin.lastCases_castSucc, Fin.lastCases_last, add_sub_cancel]
    rfl

end Dummy

section Problems

theorem ofProblem_extends (h : p.WellFormed) (he : p.totalSupply = p.totalDemand) :
    (ofProblem p).Extends p := by
  refine ⟨le_rfl, le_rfl, ⟨amount_ofProblem_nonneg h, ?_⟩, ?_, ?_⟩
  · rw [sum_supply, sum_demand, he]
  · intro y hy
    have hrows : ∀ i, ∑ j, y i j = p.supplyAt i :=
      fun i => (hy.rows i).trans (supply_ofProblem i)
    have hcolumns : ∀ j, ∑ i, y i j = p.demandAt j :=
      fun j => (hy.columns j).trans (demand_ofProblem j)
    exact ⟨⟨hy.nonneg, fun _ => ⟨hcolumns, fun i => (hrows i).le⟩,
      fun _ => ⟨hrows, fun j => (hcolumns j).le⟩⟩, (shippingCost_ofProblem y).symm⟩
  · intro x hx
    refine ⟨x, ⟨hx.nonneg, fun i => ?_, fun j => ?_⟩, shippingCost_ofProblem x⟩
    · exact ((hx.of_supply_le he.le).1 i).trans (supply_ofProblem i).symm
    · exact ((hx.of_demand_le he.ge).1 j).trans (demand_ofProblem j).symm

theorem withDestination_extends (h : p.WellFormed) (hlt : p.totalDemand < p.totalSupply) :
    ((ofProblem p).withDestination (p.totalSupply - p.totalDemand)).Extends p := by
  have hsum : ∑ i, (ofProblem p).supply i =
      ∑ j, (ofProblem p).demand j + (p.totalSupply - p.totalDemand) := by
    rw [sum_supply, sum_demand, add_sub_cancel]
  refine ⟨le_rfl, Nat.le_succ _, withDestination_balanced (amount_ofProblem_nonneg h)
    (sub_pos.mpr hlt).le hsum, ?_, ?_⟩
  · intro y hy
    refine ⟨⟨fun i j => hy.nonneg i j.castSucc, fun _ => ⟨fun j => ?_, fun i => ?_⟩,
      fun hle => absurd hle (not_le.mpr hlt)⟩, ?_⟩
    · exact (hy.columns j.castSucc).trans
        (demand_withDestination_castSucc.trans (demand_ofProblem j))
    · have hrow := (hy.rows i).trans (supply_ofProblem i)
      rw [Fin.sum_univ_castSucc] at hrow
      exact hrow ▸ le_add_of_nonneg_right (hy.nonneg i (Fin.last _))
    · rw [shippingCost_withDestination, shippingCost_ofProblem]
      rfl
  · intro x hx
    obtain ⟨hcolumns, hrows⟩ := hx.of_demand_le hlt.le
    refine ⟨_, meets_withDestination hx.nonneg (fun i => ?_) (fun j => ?_) hsum, ?_⟩
    · exact (hrows i).trans_eq (supply_ofProblem i).symm
    · exact (hcolumns j).trans (demand_ofProblem j).symm
    · rw [shippingCost_withDestination, shippingCost_ofProblem]
      simp only [Fin.lastCases_castSucc]

theorem withSource_extends (h : p.WellFormed) (hlt : p.totalSupply < p.totalDemand) :
    ((ofProblem p).withSource (p.totalDemand - p.totalSupply)).Extends p := by
  have hsum : ∑ j, (ofProblem p).demand j =
      ∑ i, (ofProblem p).supply i + (p.totalDemand - p.totalSupply) := by
    rw [sum_supply, sum_demand, add_sub_cancel]
  refine ⟨Nat.le_succ _, le_rfl, withSource_balanced (amount_ofProblem_nonneg h)
    (sub_pos.mpr hlt).le hsum, ?_, ?_⟩
  · intro y hy
    refine ⟨⟨fun i j => hy.nonneg i.castSucc j, fun hle => absurd hle (not_le.mpr hlt),
      fun _ => ⟨fun i => ?_, fun j => ?_⟩⟩, ?_⟩
    · exact (hy.rows i.castSucc).trans (supply_withSource_castSucc.trans (supply_ofProblem i))
    · have hcolumn := (hy.columns j).trans (demand_ofProblem j)
      rw [Fin.sum_univ_castSucc] at hcolumn
      exact hcolumn ▸ le_add_of_nonneg_right (hy.nonneg (Fin.last _) j)
    · rw [shippingCost_withSource, shippingCost_ofProblem]
      rfl
  · intro x hx
    obtain ⟨hrows, hcolumns⟩ := hx.of_supply_le hlt.le
    refine ⟨_, meets_withSource hx.nonneg (fun i => ?_) (fun j => ?_) hsum, ?_⟩
    · exact (hrows i).trans (supply_ofProblem i).symm
    · exact (hcolumns j).trans_eq (demand_ofProblem j).symm
    · rw [shippingCost_withSource, shippingCost_ofProblem]
      simp only [Fin.lastCases_castSucc]

end Problems

end Network

end LeastCost.Transport
