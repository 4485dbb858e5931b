import LeastCost.Hungarian.Solve
import LeastCost.Service.Endpoint
import LeastCost.Simplex.Solve
import LeastCost.Transport.Solve
import LeastCost.Wire.Assignment
import LeastCost.Wire.Program
import LeastCost.Wire.Rejection
import LeastCost.Wire.Transportation

/-!
# The JSON service

A request body is decoded for its endpoint, the problem is solved, and the response is
encoded.
-/

namespace LeastCost.Service

open Wire Json

variable (settings : Settings Float)

def solveProgram (r : ProgramRequest) : Except Failure ProgramResponse :=
  (Simplex.solve settings r.toProgram).map .ofSolution

def solveAssignment (r : AssignmentRequest) : Except Failure AssignmentResponse :=
  (Hungarian.solve settings r.toProblem).map .ofSolution

def solveTransportation (r : TransportationRequest) : Except Failure TransportationResponse :=
  (Transport.solve settings r.toProblem).map .ofPlan

/-- Decodes a request, answers it, and encodes the response. -/
def exchange {ρ σ : Type} (request : Codec ρ) (response : Codec σ)
    (answer : ρ → Except Failure σ) (body : String) : Except Failure String := do
  let r ← (request.decode body).mapError .malformed
  return response.encode (← answer r)

/-- Answers a request body at an endpoint. -/
def dispatch (endpoint body : String) : Except Failure String := do
  match ← Endpoint.ofText endpoint with
  | .simplex => exchange ProgramRequest.codec ProgramResponse.codec (solveProgram settings) body
  | .assignment =>
    exchange AssignmentRequest.codec AssignmentResponse.codec (solveAssignment settings) body
  | .transportation =>
    exchange TransportationRequest.codec TransportationResponse.codec
      (solveTransportation settings) body

/-- Answers a request body at an endpoint; a failure is answered with its report. The wording is
that of the faults of this body. -/
def respond (wording : Json.Fault → String) (endpoint body : String) : String :=
  match dispatch settings endpoint body with
  | .ok text => text
  | .error failure => Rejection.body wording failure

end LeastCost.Service
