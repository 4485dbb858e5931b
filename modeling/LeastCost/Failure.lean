import LeastCost.Problem.Validation
import LeastCost.Json.Fault

/-!
# Failures

Why a request has no answer. An infeasible program, an unbounded one, and an exhausted
iteration limit are outcomes and not failures.
-/

namespace LeastCost

inductive OverflowStage where
  | matrixReduction
  | labelAdjustment
  | costSummation
  deriving DecidableEq, Repr

def OverflowStage.name : OverflowStage → String
  | .matrixReduction => "matrix reduction"
  | .labelAdjustment => "label adjustment"
  | .costSummation => "cost summation"

inductive EngineFault where
  /-- The sum of the artificial variables, which is never negative, had no lower bound. -/
  | phaseOneUnbounded
  | overflow (stage : OverflowStage)
  /-- An alternating tree grew without reaching a free column. -/
  | lostRow
  | partialMatching (matched rows : Nat)
  | basisNotSpanning
  | noClosedLoop (source destination : Nat)
  /-- Reported by a caller in words of its own. -/
  | described (text : String)
  deriving DecidableEq, Repr

def EngineFault.message : EngineFault → String
  | .phaseOneUnbounded => "phase one reported an unbounded auxiliary problem"
  | .overflow stage =>
    "cost magnitudes overflow during " ++ stage.name ++ "; rescale the cost matrix"
  | .lostRow => "alternating tree lost its row"
  | .partialMatching matched rows =>
    "matching covers " ++ toString matched ++ " of " ++ toString rows ++ " rows"
  | .basisNotSpanning => "basis does not span the network"
  | .noClosedLoop source destination =>
    "no closed loop through cell (" ++ toString source ++ ", " ++ toString destination ++ ")"
  | .described text => text

inductive Failure where
  | invalidProblem (violations : List Violation)
  | engine (fault : EngineFault)
  | unknownEndpoint (text : String)
  | malformed (fault : Json.Fault)
  deriving DecidableEq, Repr

namespace Failure

def message (wording : Json.Fault → String) : Failure → String
  | .invalidProblem violations =>
    "Invalid problem: " ++ "; ".intercalate (violations.map Violation.message)
  | .engine fault => "Solver execution failed: " ++ fault.message
  | .unknownEndpoint text => "Unknown endpoint: " ++ text
  | .malformed fault => "Malformed request: " ++ wording fault

/-- Whether the request is to blame for its contents. -/
def isInvalidInput : Failure → Bool
  | .invalidProblem _ | .malformed _ => true
  | .engine _ | .unknownEndpoint _ => false

end Failure

/-- Goes on with a problem that has no violation. -/
def accept {σ : Type} (violations : List Violation) (solve : Except EngineFault σ) :
    Except Failure σ :=
  match violations with
  | [] => solve.mapError .engine
  | _ => .error (.invalidProblem violations)

end LeastCost
