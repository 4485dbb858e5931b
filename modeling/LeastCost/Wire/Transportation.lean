import LeastCost.Json.Schema
import LeastCost.Problem.Transportation
import LeastCost.Scalar.Double

/-!
# Transportation problems on the wire

The request that asks for a shipment plan, and the response to it.
-/

namespace LeastCost.Wire

open Json

structure TransportationRequest where
  supply : List Float
  demand : List Float
  costs : List (List Float)

/-- The plan, empty unless it was a success. -/
structure TransportationResponse where
  success : Bool
  message : String
  totalCost : Float
  transportMatrix : List (List Float)

namespace TransportationRequest

def schema : Schema :=
  .field _ (.required "supply" (.list .number)) <|
  .field _ (.required "demand" (.list .number)) <|
  .field _ (.required "costs" (.list (.list .number))) <|
  .done

def codec : Codec TransportationRequest :=
  schema.codec.through
    (fun (supply, demand, costs, ()) => { supply, demand, costs })
    (fun r => (r.supply, r.demand, r.costs, ()))

def toProblem (r : TransportationRequest) : Transportation.Problem Float :=
  ⟨r.supply, r.demand, r.costs⟩

end TransportationRequest

namespace TransportationResponse

def schema : Schema :=
  .field _ (.required "success" .flag) <|
  .field _ (.required "message" .string) <|
  .field _ (.required "total_cost" .number) <|
  .field _ (.required "transport_matrix" (.list (.list .number))) <|
  .done

def codec : Codec TransportationResponse :=
  schema.codec.through
    (fun (success, message, totalCost, transportMatrix, ()) =>
      { success, message, totalCost, transportMatrix })
    (fun r => (r.success, r.message, r.totalCost, r.transportMatrix, ()))

def ofPlan (p : Transportation.Plan Float) : TransportationResponse :=
  { success := p.status.isSuccess
    message := p.message
    totalCost := p.totalCost
    transportMatrix := p.flows }

end TransportationResponse

end LeastCost.Wire
