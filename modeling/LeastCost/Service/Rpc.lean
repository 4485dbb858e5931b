import LeastCost.Service.Dispatch

/-!
# Remote procedure calls

The calls take the same problems as the JSON service in messages with numbers for the signs,
and give the same answers in messages without optional lists.
-/

namespace LeastCost.Service.Rpc

open Wire

/-- Why a call has no answer: the message is at fault, or the service. -/
inductive Refusal where
  | invalidArgument (text : String)
  | internal (text : String)
  deriving DecidableEq, Repr

def Refusal.ofFailure (wording : Json.Fault → String) (failure : Failure) : Refusal :=
  if failure.isInvalidInput then .invalidArgument (failure.message wording)
  else .internal ("Solver error: " ++ failure.message wording)

def sign? (code : Int) : Except Refusal Sign :=
  match code with
  | 0 => .ok .lessEqual
  | 1 => .ok .greaterEqual
  | 2 => .ok .equal
  | _ => .error (.invalidArgument ("Invalid constraint sign: " ++ toString code))

structure Row where
  values : List Float

instance : Coe (List Row) (List (List Float)) := ⟨List.map Row.values⟩

instance : Coe (List (List Float)) (List Row) := ⟨List.map Row.mk⟩

structure ProgramCall where
  objective : List Float
  constraints : List Row
  rhs : List Float
  signs : List Int
  /-- Unset means yes. -/
  maximize : Option Bool

/-- The outcome of a linear program, with an empty list for absent slacks. -/
structure ProgramReply where
  success : Bool
  message : String
  optimalValue : Option Float
  solution : List Float
  slack : List Float

structure AssignmentCall where
  costMatrix : List Row

/-- An assignment, with rows and columns as 32-bit words. -/
structure AssignmentReply where
  totalCost : Float
  assignments : List (UInt32 × UInt32)

structure TransportationCall where
  supply : List Float
  demand : List Float
  costs : List Row

structure TransportationReply where
  success : Bool
  message : String
  totalCost : Float
  transportMatrix : List Row

/-- The request that a message makes. The first number that is no sign refuses it. -/
def ProgramCall.toRequest (call : ProgramCall) : Except Refusal ProgramRequest := do
  let signs ← call.signs.mapM sign?
  return {
    objective := call.objective
    constraints := call.constraints
    rhs := call.rhs
    signs
    maximize := call.maximize.getD true }

def ProgramReply.ofResponse (r : ProgramResponse) : ProgramReply :=
  { success := r.success
    message := r.message
    optimalValue := r.optimalValue
    solution := r.solution
    slack := r.slack.getD [] }

def AssignmentCall.toRequest (call : AssignmentCall) : AssignmentRequest :=
  { costMatrix := call.costMatrix }

def AssignmentReply.ofResponse (r : AssignmentResponse) : AssignmentReply :=
  { totalCost := r.totalCost
    assignments := r.assignments.map fun (row, column) => (row.toUInt32, column.toUInt32) }

def TransportationCall.toRequest (call : TransportationCall) : TransportationRequest :=
  { supply := call.supply
    demand := call.demand
    costs := call.costs }

def TransportationReply.ofResponse (r : TransportationResponse) : TransportationReply :=
  { success := r.success
    message := r.message
    totalCost := r.totalCost
    transportMatrix := r.transportMatrix }

variable (wording : Json.Fault → String) (settings : Settings Float)

def solveProgram (call : ProgramCall) : Except Refusal ProgramReply := do
  let r ← call.toRequest
  let response ← (Service.solveProgram settings r).mapError (.ofFailure wording)
  return .ofResponse response

def solveAssignment (call : AssignmentCall) : Except Refusal AssignmentReply := do
  let response ← (Service.solveAssignment settings call.toRequest).mapError (.ofFailure wording)
  return .ofResponse response

def solveTransportation (call : TransportationCall) : Except Refusal TransportationReply := do
  let response ← (Service.solveTransportation settings call.toRequest).mapError (.ofFailure wording)
  return .ofResponse response

end LeastCost.Service.Rpc
