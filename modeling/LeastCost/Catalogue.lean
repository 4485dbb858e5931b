/-!
# The catalogue of engines
-/

namespace LeastCost

structure Engine where
  name : String
  problem : String
  capabilities : List String
  deriving DecidableEq, Repr

def catalogue : List Engine :=
  [ { name := "Two-Phase Simplex"
      problem := "simplex"
      capabilities :=
        [ "Linear Programming"
        , "Maximize and Minimize"
        , "<=, >= and = constraints"
        , "Infeasibility and unboundedness detection" ] }
  , { name := "Hungarian Method"
      problem := "assignment"
      capabilities :=
        [ "Minimum-cost perfect matching"
        , "Square cost matrices"
        , "O(n^3) shortest augmenting paths" ] }
  , { name := "Vogel + MODI Transportation"
      problem := "transportation"
      capabilities :=
        [ "Minimum-cost transportation"
        , "Unbalanced supply and demand"
        , "Vogel's approximation start"
        , "Modified distribution optimality test" ] } ]

end LeastCost
