import LeastCost.Scalar.Basic
import LeastCost.Decimal.Style

/-!
# Binary64 scalars

The numbers a service computes with. Sums and products round, magnitudes may overflow, and
what is not a number compares with nothing.
-/

namespace LeastCost

namespace Double

/-- The place of a number in the total order of all bit patterns: negative numbers by
falling magnitude, then the others by rising magnitude. -/
def rank (x : Float) : Nat :=
  let bits := x.toBits.toNat
  if bits < Decimal.signBit then bits + Decimal.signBit else 2 * Decimal.signBit - 1 - bits

/-- A number inside a message: shortest digits, never an exponent. -/
def text (x : Float) : String :=
  if x.isNaN then "NaN"
  else if x.isInf then (if x < 0 then "-inf" else "inf")
  else String.ofList (Decimal.Style.plain.write x)

end Double

instance : Scalar Float where
  zero := 0.0
  one := 1.0
  decidableLT := inferInstance
  decidableLE := inferInstance
  isFinite := Float.isFinite
  precedes x y := decide (Double.rank x ≤ Double.rank y)
  text := Double.text

end LeastCost
