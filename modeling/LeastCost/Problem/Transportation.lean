import LeastCost.Problem.Outcome

/-!
# Transportation problems

Sources with supplies, destinations with demands, and the cost of shipping one unit from each
source to each destination. Supplies and demands need not balance.
-/

namespace LeastCost.Transportation

/-- Supplies, demands, and unit costs with a row for each source. -/
structure Problem (α : Type) where
  supply : List α
  demand : List α
  costs : List (List α)
  deriving DecidableEq

namespace Problem

variable {α : Type} (p : Problem α)

def sources : Nat := p.supply.length

def destinations : Nat := p.demand.length

variable [Scalar α]

def totalSupply : α := Scalar.sum p.supply

def totalDemand : α := Scalar.sum p.demand

end Problem

structure Plan (α : Type) where
  status : Status
  message : String
  flows : List (List α)
  totalCost : α
  statistics : Statistics := {}
  deriving DecidableEq

namespace Plan

variable {α : Type} [Scalar α] (p : Plan α)

/-- The amount that leaves a source; nothing leaves a source that is not there. -/
def shippedFrom (source : Nat) : α :=
  match p.flows[source]? with
  | some row => Scalar.sum row
  | none => 0

/-- The amount that reaches a destination, from the rows long enough to have it. -/
def deliveredTo (destination : Nat) : α := Scalar.sum (p.flows.filterMap (·[destination]?))

end Plan

end LeastCost.Transportation
