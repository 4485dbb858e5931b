import LeastCost.Scalar.Basic

/-!
# Settings and outcomes

What every engine is told beside its problem, and what every engine reports beside its
solution.
-/

namespace LeastCost

structure Settings (α : Type) where
  /-- Absolute tolerance of the comparisons. -/
  tolerance : α
  /-- The most pivots or improvement steps of one solve. -/
  maxIterations : Nat
  deriving DecidableEq

inductive Status where
  | optimal
  | infeasible
  | unbounded
  | iterationLimit
  deriving DecidableEq, Repr

def Status.name : Status → String
  | .optimal => "Optimal"
  | .infeasible => "Infeasible"
  | .unbounded => "Unbounded"
  | .iterationLimit => "Iteration Limit Reached"

def Status.isSuccess (s : Status) : Bool := s = .optimal

structure Statistics where
  iterations : Nat := 0
  phaseOneIterations : Nat := 0
  rows : Nat := 0
  columns : Nat := 0
  deriving DecidableEq, Repr

end LeastCost
