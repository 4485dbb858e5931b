import Mathlib.Algebra.BigOperators.Group.Finset.Defs
import Mathlib.Algebra.Order.Field.Rat
import Mathlib.Data.Fintype.Basic
import LeastCost.Problem.Assignment
import LeastCost.Problem.LinearProgram
import LeastCost.Problem.Transportation
import LeastCost.Scalar.Exact

/-! # Feasible solutions

What it means for a point to satisfy a linear program and for amounts to meet supplies and
demands, and when one objective value beats another.
-/

namespace LeastCost

open scoped BigOperators

variable {α : Type} [Scalar α]

/-- The row holds at a point. -/
def LinearProgram.Row.Holds (r : LinearProgram.Row α) (x : List α) : Prop :=
  match r.sign with
  | .lessEqual => Scalar.dot r.coefficients x ≤ r.bound
  | .greaterEqual => r.bound ≤ Scalar.dot r.coefficients x
  | .equal => Scalar.dot r.coefficients x = r.bound

/-- A non-negative point at which every row holds. -/
structure LinearProgram.Feasible (p : LinearProgram α) (x : List α) : Prop where
  length_eq : x.length = p.variableCount
  nonneg : ∀ v ∈ x, 0 ≤ v
  holds : ∀ r ∈ p.rowList, r.Holds x

section Decidable

variable [DecidableEq α]

instance (r : LinearProgram.Row α) (x : List α) : Decidable (r.Holds x) :=
  match r with
  | ⟨coefficients, .lessEqual, bound⟩ =>
    inferInstanceAs (Decidable (Scalar.dot coefficients x ≤ bound))
  | ⟨coefficients, .greaterEqual, bound⟩ =>
    inferInstanceAs (Decidable (bound ≤ Scalar.dot coefficients x))
  | ⟨coefficients, .equal, bound⟩ =>
    inferInstanceAs (Decidable (Scalar.dot coefficients x = bound))

instance (p : LinearProgram α) (x : List α) : Decidable (p.Feasible x) :=
  decidable_of_iff
    (x.length = p.variableCount ∧ (∀ v ∈ x, 0 ≤ v) ∧ ∀ r ∈ p.rowList, r.Holds x)
    ⟨fun ⟨h, h', h''⟩ => ⟨h, h', h''⟩, fun h => ⟨h.length_eq, h.nonneg, h.holds⟩⟩

end Decidable

def Direction.Better : Direction → α → α → Prop
  | .minimize, v, w => v < w
  | .maximize, v, w => w < v

def Assignment.Problem.cost (p : Assignment.Problem α) (i j : Nat) : α :=
  (p.costs.getD i []).getD j 0

namespace Transportation.Problem

def cost (p : Problem α) (i j : Nat) : α := (p.costs.getD i []).getD j 0

def supplyAt (p : Problem α) (i : Fin p.sources) : α := p.supply.get i

def demandAt (p : Problem α) (j : Fin p.destinations) : α := p.demand.get j

def shippingCost (p : Problem Rat) (x : Fin p.sources → Fin p.destinations → Rat) : Rat :=
  ∑ i, ∑ j, x i j * p.cost i.val j.val

/-- Amounts that use up the lesser one of total supply and total demand, and exceed nothing. -/
structure Meets (p : Problem Rat) (x : Fin p.sources → Fin p.destinations → Rat) : Prop where
  nonneg : ∀ i j, 0 ≤ x i j
  of_demand_le : p.totalDemand ≤ p.totalSupply →
    (∀ j, ∑ i, x i j = p.demandAt j) ∧ ∀ i, ∑ j, x i j ≤ p.supplyAt i
  of_supply_le : p.totalSupply ≤ p.totalDemand →
    (∀ i, ∑ j, x i j = p.supplyAt i) ∧ ∀ j, ∑ i, x i j ≤ p.demandAt j

end Transportation.Problem

end LeastCost
