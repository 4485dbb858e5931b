import LeastCost.Problem.LinearProgram
import LeastCost.Problem.Assignment
import LeastCost.Problem.Transportation
import LeastCost.Problem.Violation

/-!
# Validation

Every violation of a problem, in the order of its parts. A problem is valid when it has
none. A list of numbers is reported once for each check that it fails, at the first entry
that fails it.
-/

namespace LeastCost

variable {α : Type}

def reportUnless (holds : Bool) (violation : Violation) : List Violation :=
  if holds then [] else [violation]

/-- The report of one check for each row of a matrix, in order. -/
def reportRows (check : Nat → List α → List Violation) (rows : List (List α)) :
    List Violation :=
  rows.zipIdx.flatMap fun (row, index) => check index row

section Checks

variable [Scalar α]

/-- The first entry that is infinite or not a number. -/
def reportNonFinite (place : Place) (values : List α) : List Violation :=
  match values.findIdx? (fun x => !Scalar.isFinite x) with
  | some index => [.nonFinite place index]
  | none => []

def reportNegative (place : Place) (values : List α) : List Violation :=
  match values.zipIdx.find? (fun (x, _) => decide (x < 0)) with
  | some (x, index) => [.negative place (Scalar.text x) index]
  | none => []

def LinearProgram.violations (p : LinearProgram α) : List Violation :=
  reportUnless (p.variableCount != 0) .emptyObjective ++
    reportNonFinite .objective p.objective ++
    reportRows (fun index row =>
      reportUnless (row.length == p.variableCount)
          (.constraintLength index row.length p.variableCount) ++
        reportNonFinite (.constraint index) row) p.constraints ++
    reportUnless (p.rhs.length == p.rowCount) (.boundCount p.rhs.length p.rowCount) ++
    reportNonFinite .rightHandSide p.rhs ++
    reportUnless (p.signs.length == p.rowCount) (.signCount p.signs.length p.rowCount)

def Assignment.Problem.violations (p : Assignment.Problem α) : List Violation :=
  reportUnless (p.size != 0) .emptyMatrix ++
    reportRows (fun index row =>
      reportUnless (row.length == p.size) (.notSquare index row.length p.size) ++
        reportNonFinite (.costRow index) row) p.costs

def Transportation.Problem.violations (p : Transportation.Problem α) : List Violation :=
  reportUnless (p.sources != 0) .noSource ++
    reportUnless (p.destinations != 0) .noDestination ++
    reportNonFinite .supply p.supply ++
    reportNonFinite .demand p.demand ++
    reportNegative .supply p.supply ++
    reportNegative .demand p.demand ++
    reportUnless (p.costs.length == p.sources) (.costRowCount p.costs.length p.sources) ++
    reportRows (fun index row =>
      reportUnless (row.length == p.destinations)
          (.costRowLength index row.length p.destinations) ++
        reportNonFinite (.costRow index) row) p.costs

end Checks

end LeastCost
