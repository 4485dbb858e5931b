import LeastCost.Json.Schema
import LeastCost.Problem.LinearProgram
import LeastCost.Scalar.Double

/-!
# Linear programs on the wire

The request that asks for a linear program to be solved, and the response to it.
-/

namespace LeastCost.Wire

open Json

structure ProgramRequest where
  objective : List Float
  constraints : List (List Float) := []
  rhs : List Float := []
  signs : List Sign := []
  maximize : Bool := true

/-- The outcome of a linear program. Only a success has slacks. -/
structure ProgramResponse where
  success : Bool
  message : String
  optimalValue : Option Float
  solution : List Float
  slack : Option (List Float)

namespace ProgramRequest

/-- Only the objective has to be given. -/
def schema : Schema :=
  .field _ (.required "objective" (.list .number)) <|
  .field _ (.withDefault "constraints" (.list (.list .number)) []) <|
  .field _ (.withDefault "rhs" (.list .number) []) <|
  .field _ (.withDefault "signs" (.list .sign) []) <|
  .field _ (.withDefault "maximize" .flag true) <|
  .done

def codec : Codec ProgramRequest :=
  schema.codec.through
    (fun (objective, constraints, rhs, signs, maximize, ()) =>
      { objective, constraints, rhs, signs, maximize })
    (fun r => (r.objective, r.constraints, r.rhs, r.signs, r.maximize, ()))

def toProgram (r : ProgramRequest) : LinearProgram Float :=
  { direction := if r.maximize then .maximize else .minimize
    objective := r.objective
    constraints := r.constraints
    signs := r.signs
    rhs := r.rhs }

end ProgramRequest

namespace ProgramResponse

def schema : Schema :=
  .field _ (.required "success" .flag) <|
  .field _ (.required "message" .string) <|
  .field _ (.optional "optimal_value" .number) <|
  .field _ (.required "solution" (.list .number)) <|
  .field _ (.optional "slack" (.list .number)) <|
  .done

def codec : Codec ProgramResponse :=
  schema.codec.through
    (fun (success, message, optimalValue, solution, slack, ()) =>
      { success, message, optimalValue, solution, slack })
    (fun r => (r.success, r.message, r.optimalValue, r.solution, r.slack, ()))

def ofSolution (s : LinearProgram.Solution Float) : ProgramResponse :=
  { success := s.status.isSuccess
    message := s.message
    optimalValue := s.value
    solution := s.point
    slack := if s.status.isSuccess then some s.slack else none }

end ProgramResponse

end LeastCost.Wire
