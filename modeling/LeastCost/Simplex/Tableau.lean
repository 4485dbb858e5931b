import LeastCost.Selection

/-!
# Simplex tableaus

A tableau holds a system of equations that is solved for its basic variables, and the
reduced costs of all columns. A row `a` with right-hand side `b` is stored as `a` followed by
`b`; the reduced costs are followed by the negated objective of the basic solution.
-/

namespace LeastCost.Simplex

variable {α : Type} [Scalar α]

/-- Constraint rows with their basic columns, and the reduced-cost row. -/
structure Tableau (α : Type) where
  rows : List (List α)
  basis : List Nat
  costs : List α
  /-- The number of columns, without the right-hand side. -/
  columns : Nat
  deriving DecidableEq

/-- The entry of a row in a column. -/
def entry (row : List α) (column : Nat) : α := row.getD column 0

/-- Subtracts the multiple of the pivot row that clears a column. A row that has zero there
is left as it is. -/
def eliminate (pivotRow : List α) (column : Nat) (row : List α) : List α :=
  let factor := entry row column
  if Scalar.isZero factor then row
  else (row.zipWith (fun x p => x - factor * p) pivotRow).set column 0

namespace Tableau

variable (t : Tableau α)

def row (i : Nat) : List α := t.rows.getD i []

def basic (i : Nat) : Nat := t.basis.getD i 0

def rhs (row : List α) : α := entry row t.columns

def objective : α := -entry t.costs t.columns

/-- The reduced costs for these column costs: the multiple of each row that clears its basic
column is subtracted. -/
def priceOut (columnCosts : List α) : Tableau α :=
  { t with
    costs := (t.rows.zip t.basis).foldl
      (fun costs (row, basic) =>
        let price := entry columnCosts basic
        if Scalar.isZero price then costs else costs.zipWith (fun c a => c - price * a) row)
      (columnCosts ++ [0]) }

def pivotRow (i column : Nat) : List α :=
  let row := t.row i
  (row.map (· / entry row column)).set column 1

/-- Makes a column basic in a row and clears it everywhere else. -/
def pivot (i column : Nat) : Tableau α :=
  let pivotRow := t.pivotRow i column
  { t with
    rows := t.rows.mapIdx fun k row => if k = i then pivotRow else eliminate pivotRow column row
    basis := t.basis.set i column
    costs := eliminate pivotRow column t.costs }

/-- The values of the first columns in the basic solution, zero where not basic. -/
def basicValues (count : Nat) (tolerance : α) : List α :=
  (t.basis.zip t.rows).foldl
    (fun values (basic, row) => values.set basic (Scalar.clean tolerance (t.rhs row)))
    (List.replicate count 0)

end Tableau

end LeastCost.Simplex
