import LeastCost.Failure
import LeastCost.Grid

/-!
# Dual labels

A label for each row and each column. The reduced cost of a cell is what its cost exceeds the
two labels by. Labels are good when no reduced cost is negative: a perfect matching over
cells of reduced cost zero is then a cheapest one.
-/

namespace LeastCost.Hungarian

variable {α : Type} {n : Nat}

structure Labels (α : Type) (n : Nat) where
  row : Family α n
  column : Family α n

variable [Scalar α]

/-- The cost of a cell beyond the labels of its row and its column. -/
def Labels.reduced (l : Labels α n) (costs : Grid α n n) (i j : Fin n) : α :=
  costs i j - l.row i - l.column j

/-- The least value of a family. The value at `start`, where the scan begins, takes part like
all others. -/
def leastOver (f : Fin n → α) (start : Fin n) : α :=
  (List.finRange n).foldl (fun least k => Scalar.min least (f k)) (f start)

/-- Row minima, then the column minima of what is left. -/
def Labels.reduction (costs : Grid α n n) : Labels α n :=
  let row := Family.ofFn fun i => leastOver (costs i) i
  { row
    column := .ofFn fun j => leastOver (fun i => costs i j - row i) j }

def Labels.isFinite (l : Labels α n) : Bool :=
  l.row.all Scalar.isFinite && l.column.all Scalar.isFinite

def Labels.reduce (costs : Grid α n n) : Except EngineFault (Labels α n) :=
  let l := Labels.reduction costs
  if l.isFinite then .ok l else .error (.overflow .matrixReduction)

end LeastCost.Hungarian
