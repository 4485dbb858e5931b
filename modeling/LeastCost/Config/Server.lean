import LeastCost.Config.Address
import LeastCost.Problem.Outcome
import LeastCost.Scalar.Double
import LeastCost.Text.Blank

/-!
# Server configuration

Where a service listens and the settings it solves with, looked up by name. A name that is
not set keeps its default.
-/

namespace LeastCost.Config

def defaultSettings : Settings Float := { tolerance := 1e-9, maxIterations := 5000 }

def defaultAddress : String := "0.0.0.0:50051"

def addressName : String := "ORSOLVE_ADDR"

def toleranceName : String := "ORSOLVE_TOLERANCE"

def iterationsName : String := "ORSOLVE_MAX_ITERATIONS"

/-- The value that is not what its name asks for. -/
inductive ConfigFault where
  | address (value : String)
  | tolerance (value : String)
  | iterations (value : String)
  deriving DecidableEq, Repr

def ConfigFault.message : ConfigFault → String
  | .address value => addressName ++ " is not a valid socket address: " ++ value
  | .tolerance value => toleranceName ++ " must be a finite positive number, got " ++ value
  | .iterations value => iterationsName ++ " must be a positive integer, got " ++ value

structure Server where
  address : SocketAddress
  settings : Settings Float
  deriving DecidableEq

/-- A finite positive number, blanks around it ignored. -/
def tolerance? (value : String) : Option Float :=
  (Decimal.float? (Text.trim value.toList)).filter fun t => t.isFinite && decide (0 < t)

def iterations? (value : String) : Option Nat :=
  (Decimal.natBelow? 0x10000000000000000 (Text.trim value.toList)).filter (0 < ·)

def readValue {β : Type} (read? : String → Option β) (fault : String → ConfigFault)
    (value : String) : Except ConfigFault β :=
  match read? value with
  | some x => .ok x
  | none => .error (fault value)

def readOr {β : Type} (default : β) (read? : String → Option β) (fault : String → ConfigFault) :
    Option String → Except ConfigFault β
  | none => .ok default
  | some value => readValue read? fault value

def address? (value : String) : Option SocketAddress :=
  SocketAddress.ofText? (Text.trim value.toList)

/-- The configuration given by a lookup. The address is read first, then the tolerance, then
the iteration limit. -/
def Server.ofLookup (lookup : String → Option String) : Except ConfigFault Server := do
  let address ← readValue address? .address ((lookup addressName).getD defaultAddress)
  let tolerance ← readOr defaultSettings.tolerance tolerance? .tolerance (lookup toleranceName)
  let maxIterations ←
    readOr defaultSettings.maxIterations iterations? .iterations (lookup iterationsName)
  return { address, settings := { tolerance, maxIterations } }

end LeastCost.Config
