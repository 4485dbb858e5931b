import LeastCost.Simplex.Standard

/-!
# Artificial variables

Once the artificial variables are zero, those still basic are pivoted out. A row in which no
real column can take over says nothing about the real variables and is dropped.
-/

namespace LeastCost.Simplex

variable {α : Type} [Scalar α]

namespace Tableau

/-- Makes the first real column with an entry beyond the tolerance basic in a row whose basic
column is artificial. -/
def expelRow (real : Nat) (tolerance : α) (t : Tableau α) (i : Nat) : Tableau α :=
  if t.basic i < real then t
  else
    match (List.range real).find? fun j => decide (tolerance < Scalar.abs (entry (t.row i) j)) with
    | some j => t.pivot i j
    | none => t

def dropRedundantRows (real : Nat) (t : Tableau α) : Tableau α :=
  let kept := (t.basis.zip t.rows).filter fun (basic, _) => basic < real
  { t with basis := kept.map (·.1), rows := kept.map (·.2) }

/-- Pivots artificial columns out of the basis, row by row, and drops the rows that keep
one. -/
def expelArtificials (real : Nat) (tolerance : α) (t : Tableau α) : Tableau α :=
  ((List.range t.rows.length).foldl (expelRow real tolerance) t).dropRedundantRows real

def dropArtificialColumns (real : Nat) (t : Tableau α) : Tableau α :=
  { t with
    rows := t.rows.map fun row => row.take real ++ [t.rhs row]
    columns := real }

end Tableau

end LeastCost.Simplex
