/-!
# Violations

What can be wrong with a problem before any engine has seen it.
-/

namespace LeastCost

/-- A list of numbers inside a problem. -/
inductive Place where
  | objective
  | constraint (row : Nat)
  | rightHandSide
  | costRow (row : Nat)
  | supply
  | demand
  deriving DecidableEq, Repr

def Place.name : Place → String
  | .objective => "Objective"
  | .constraint row => "Constraint " ++ toString row
  | .rightHandSide => "Right-hand side"
  | .costRow row => "Cost row " ++ toString row
  | .supply => "Supply"
  | .demand => "Demand"

inductive Violation where
  | emptyObjective
  | constraintLength (row found expected : Nat)
  | boundCount (found constraints : Nat)
  | signCount (found constraints : Nat)
  | emptyMatrix
  | notSquare (row found rows : Nat)
  | noSource
  | noDestination
  | costRowCount (found sources : Nat)
  | costRowLength (row found destinations : Nat)
  | nonFinite (place : Place) (index : Nat)
  /-- The text of the number is part of the report. -/
  | negative (place : Place) (found : String) (index : Nat)
  /-- Reported by a caller in words of its own. -/
  | described (text : String)
  deriving DecidableEq, Repr

def Violation.message : Violation → String
  | .emptyObjective => "Objective must have at least one coefficient"
  | .constraintLength row found expected =>
    "Constraint " ++ toString row ++ " has " ++ toString found ++
      " coefficients but problem has " ++ toString expected ++ " variables"
  | .boundCount found constraints =>
    "Right-hand side has " ++ toString found ++ " entries but problem has " ++
      toString constraints ++ " constraints"
  | .signCount found constraints =>
    "Sign vector has " ++ toString found ++ " entries but problem has " ++
      toString constraints ++ " constraints"
  | .emptyMatrix => "Cost matrix must have at least one row"
  | .notSquare row found rows =>
    "Cost matrix must be square: row " ++ toString row ++ " has " ++ toString found ++
      " columns but there are " ++ toString rows ++ " rows"
  | .noSource => "At least one source is required"
  | .noDestination => "At least one destination is required"
  | .costRowCount found sources =>
    "Cost matrix has " ++ toString found ++ " rows but there are " ++ toString sources ++
      " sources"
  | .costRowLength row found destinations =>
    "Cost row " ++ toString row ++ " has " ++ toString found ++ " columns but there are " ++
      toString destinations ++ " destinations"
  | .nonFinite place index =>
    place.name ++ " contains a non-finite value at index " ++ toString index
  | .negative place found index =>
    place.name ++ " must be non-negative, found " ++ found ++ " at index " ++ toString index
  | .described text => text

end LeastCost
