import LeastCost.Problem.LinearProgram
import LeastCost.Simplex.Tableau

/-!
# Standard form

A linear program as a system of equations with a basis. A row with a negative right-hand side
is multiplied by minus one, so that every basic value starts non-negative. An inequality gets
a slack or surplus column, and a row that its own slack cannot start gets an artificial
column.
-/

namespace LeastCost

/-- The sign of a row that starts with an artificial basic variable. -/
def Sign.needsArtificial (s : Sign) : Bool := s != .lessEqual

def Sign.hasSlack (s : Sign) : Bool := s != .equal

namespace Simplex

variable {α : Type} [Scalar α]

/-- The columns of the standard form: decision variables up to `structural`, slack and
surplus columns up to `real`, and artificial columns up to `total`. -/
structure Layout where
  structural : Nat
  real : Nat
  total : Nat
  deriving DecidableEq, Repr

open LinearProgram (Row)

/-- The row with a non-negative right-hand side. -/
def oriented (r : Row α) : Row α :=
  if r.bound < 0 then ⟨r.coefficients.map (- ·), r.sign.flipped, -r.bound⟩ else r

def Layout.ofRows (structural : Nat) (rows : List (Row α)) : Layout :=
  let real := structural + rows.countP (·.sign.hasSlack)
  ⟨structural, real, real + rows.countP (·.sign.needsArtificial)⟩

/-- A row with zeros in all added columns. -/
def Layout.blankRow (layout : Layout) (r : Row α) : List α :=
  r.coefficients ++ List.replicate (layout.total - layout.structural) 0 ++ [r.bound]

/-- Basic columns and rows of the standard form, given the next free slack column and the
next free artificial column. -/
def standardRows (layout : Layout) : Nat → Nat → List (Row α) → List (Nat × List α)
  | _, _, [] => []
  | slack, artificial, r :: rest =>
    let blank := layout.blankRow r
    match r.sign with
    | .lessEqual =>
      (slack, blank.set slack 1) :: standardRows layout (slack + 1) artificial rest
    | .greaterEqual =>
      (artificial, (blank.set slack (-1)).set artificial 1) ::
        standardRows layout (slack + 1) (artificial + 1) rest
    | .equal =>
      (artificial, blank.set artificial 1) ::
        standardRows layout slack (artificial + 1) rest

def layout (p : LinearProgram α) : Layout :=
  .ofRows p.variableCount (p.rowList.map oriented)

def standardize (p : LinearProgram α) : Tableau α :=
  let l := layout p
  let rows := standardRows l l.structural l.real (p.rowList.map oriented)
  { rows := rows.map (·.2)
    basis := rows.map (·.1)
    costs := List.replicate (l.total + 1) 0
    columns := l.total }

end Simplex

end LeastCost
