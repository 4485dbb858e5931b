import LeastCost.Simplex.Tableau

/-!
# Pivoting

The choice of a pivot, and pivoting until the tableau is optimal, unbounded, or the budget of
pivots is spent.
-/

namespace LeastCost.Simplex

variable {α : Type} [Scalar α]

namespace Tableau

variable (t : Tableau α) (tolerance : α)

/-- The first column of most negative reduced cost. -/
def enteringColumn : Option Nat :=
  Selection.firstLeast (entry t.costs)
    ((List.range t.columns).filter fun j => decide (entry t.costs j < -tolerance))

/-- How far a column can grow before the basic variable of a row reaches zero. -/
def ratio (column i : Nat) : α :=
  let row := t.row i
  Scalar.max (t.rhs row) 0 / entry row column

/-- The row of least ratio among those with a positive entry in the column. Ratios within the
tolerance of each other are a tie, which the smaller basic column wins. -/
def leavingRow (column : Nat) : Option Nat :=
  Selection.choose
    (fun next best =>
      let r := t.ratio column next
      let least := t.ratio column best
      decide (r < least - tolerance) ||
        (decide (Scalar.abs (r - least) ≤ tolerance) && decide (t.basic next < t.basic best)))
    ((List.range t.rows.length).filter fun i => !decide (entry (t.row i) column ≤ tolerance))

end Tableau

inductive Move where
  | optimal
  | unbounded
  | pivot (row column : Nat)
  deriving DecidableEq

/-- No column improves the objective, or no row limits one that does, or a pivot. -/
def Tableau.next (t : Tableau α) (tolerance : α) : Move :=
  match t.enteringColumn tolerance with
  | none => .optimal
  | some column =>
    match t.leavingRow tolerance column with
    | none => .unbounded
    | some row => .pivot row column

inductive Verdict where
  | optimal
  | unbounded
  | iterationLimit
  deriving DecidableEq

structure Run (α : Type) where
  verdict : Verdict
  tableau : Tableau α
  pivots : Nat

/-- Pivots until there is nothing to pivot on or the budget is spent. The pivots made before
count too. -/
def run (tolerance : α) (budget pivots : Nat) (t : Tableau α) : Run α :=
  match t.next tolerance with
  | .optimal => ⟨.optimal, t, pivots⟩
  | .unbounded => ⟨.unbounded, t, pivots⟩
  | .pivot row column =>
    match budget with
    | 0 => ⟨.iterationLimit, t, pivots⟩
    | budget + 1 => run tolerance budget (pivots + 1) (t.pivot row column)

end LeastCost.Simplex
