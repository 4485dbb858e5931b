import LeastCost.Problem.Outcome

/-!
# Assignment problems

A square matrix of costs, from which every row and every column is to give one cell.
-/

namespace LeastCost.Assignment

structure Problem (α : Type) where
  costs : List (List α)
  deriving DecidableEq

def Problem.size {α : Type} (p : Problem α) : Nat := p.costs.length

/-- Cells chosen one to a row, in row order, and the sum of their costs. -/
structure Solution (α : Type) where
  pairs : List (Nat × Nat)
  totalCost : α
  statistics : Statistics := {}
  deriving DecidableEq

def Solution.columnOf {α : Type} (s : Solution α) (row : Nat) : Option Nat :=
  (s.pairs.find? (·.1 == row)).map (·.2)

end LeastCost.Assignment
