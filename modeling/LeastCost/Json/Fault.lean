/-!
# Faults of a JSON text

The first problem found from left to right decides the kind of the fault. How a fault is worded is
a parameter wherever one is told.
-/

namespace LeastCost.Json

/-- Why a text does not decode to a value. -/
inductive Fault where
  /-- The text is not JSON, or goes on after the value. -/
  | malformed
  /-- The text holds a value that does not fit. -/
  | mismatch
  /-- The text ends too early. -/
  | truncated
  deriving DecidableEq, Repr

end LeastCost.Json
