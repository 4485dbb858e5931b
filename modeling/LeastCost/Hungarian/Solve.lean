import LeastCost.Hungarian.Tree

/-!
# The Hungarian method

Row after row is matched along a shortest alternating path. The labels prove at the end that
no perfect matching is cheaper.
-/

namespace LeastCost.Hungarian

variable {α : Type} {n : Nat}

/-- Labels, the row matched to each column, and the number of label adjustments. -/
structure Matching (α : Type) (n : Nat) where
  labels : Labels α n
  rowOf : Family (Option (Fin n)) n
  adjustments : Nat

/-- Moves each column of a path to the row of the next one, and the last to the new row. -/
def rematch (row : Fin n) :
    List (Fin n) → Family (Option (Fin n)) n → Family (Option (Fin n)) n
  | [], rowOf => rowOf
  | [column], rowOf => rowOf.set column (some row)
  | column :: next :: path, rowOf =>
    rematch row (next :: path) (rowOf.set column (rowOf next))

def Matching.cells (s : Matching α n) : List (Fin n × Fin n) :=
  (List.finRange n).filterMap fun i =>
    ((List.finRange n).find? fun j => s.rowOf j = some i).map (i, ·)

variable [Scalar α]

def Matching.insertRow (tolerance : α) (costs : Grid α n n) (s : Matching α n) (row : Fin n) :
    Except EngineFault (Matching α n) := do
  let (tree, path) ← grow tolerance costs s.rowOf n (Tree.root s.labels row)
  return ⟨tree.labels, rematch row path s.rowOf, s.adjustments + tree.adjustments⟩

def Matching.complete (tolerance : α) (costs : Grid α n n) :
    Except EngineFault (Matching α n) := do
  let labels ← Labels.reduce costs
  (List.finRange n).foldlM (Matching.insertRow tolerance costs)
    ⟨labels, .replicate n none, 0⟩

def assign (tolerance : α) (costs : Grid α n n) :
    Except EngineFault (Assignment.Solution α) := do
  let s ← Matching.complete tolerance costs
  let cells := s.cells
  if cells.length ≠ n then throw (.partialMatching cells.length n)
  let total := Scalar.sum (cells.map fun (i, j) => costs i j)
  if Scalar.isFinite total then
    return {
      pairs := cells.map fun (i, j) => (i.val, j.val)
      totalCost := total
      statistics := { iterations := s.adjustments, rows := n, columns := n } }
  else throw (.overflow .costSummation)

def solve (s : Settings α) (p : Assignment.Problem α) :
    Except Failure (Assignment.Solution α) :=
  accept p.violations (assign s.tolerance (Grid.ofLists p.costs : Grid α p.size p.size))

end LeastCost.Hungarian
