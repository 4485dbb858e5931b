import LeastCost.Scalar.Basic

/-!
# Exact scalars

Rational numbers, over which the engines compute without rounding.
-/

namespace LeastCost

instance : Scalar Rat where
  zero := 0
  one := 1
  decidableLT := inferInstance
  decidableLE := inferInstance
  isFinite _ := true
  precedes x y := decide (x ≤ y)
  text x := toString x

end LeastCost
