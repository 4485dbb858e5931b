import LeastCost.Json.Schema
import LeastCost.Problem.Assignment
import LeastCost.Scalar.Double

/-!
# Assignment problems on the wire

The request that asks for an assignment, and the response to it.
-/

namespace LeastCost.Wire

open Json

structure AssignmentRequest where
  costMatrix : List (List Float)

structure AssignmentResponse where
  totalCost : Float
  assignments : List (UInt64 × UInt64)

namespace AssignmentRequest

def schema : Schema :=
  .field _ (.required "cost_matrix" (.list (.list .number))) .done

def codec : Codec AssignmentRequest :=
  schema.codec.through (fun (costMatrix, ()) => { costMatrix }) (fun r => (r.costMatrix, ()))

def toProblem (r : AssignmentRequest) : Assignment.Problem Float := ⟨r.costMatrix⟩

end AssignmentRequest

namespace AssignmentResponse

def schema : Schema :=
  .field _ (.required "total_cost" .number) <|
  .field _ (.required "assignments" (.list (.pair .index))) <|
  .done

def codec : Codec AssignmentResponse :=
  schema.codec.through
    (fun (totalCost, assignments, ()) => { totalCost, assignments })
    (fun r => (r.totalCost, r.assignments, ()))

def ofSolution (s : Assignment.Solution Float) : AssignmentResponse :=
  { totalCost := s.totalCost
    assignments := s.pairs.map fun (row, column) => (row.toUInt64, column.toUInt64) }

end AssignmentResponse

end LeastCost.Wire
