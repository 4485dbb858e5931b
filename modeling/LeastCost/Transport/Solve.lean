import LeastCost.Failure
import LeastCost.Transport.Completion
import LeastCost.Transport.Loop
import LeastCost.Transport.Vogel

/-!
# The transportation method

The network is balanced with a dummy node, a first plan is drafted, and loops are closed
through cells of negative reduced cost until there is none. Then the potentials prove that no
plan is cheaper.
-/

namespace LeastCost.Transport

variable {α : Type} [Scalar α] {m n : Nat}

open Transportation (Plan Problem)

/-- The basis of the last step, whether it was proven optimal, and the number of steps. -/
structure Improved (α : Type) (m n : Nat) where
  isOptimal : Bool
  basis : Basis α m n
  steps : Nat

/-- Closes loops until the plan is optimal or the budget is spent. The steps made before count
too. -/
def improve (net : Network α m n) (tolerance threshold : α) (budget steps : Nat)
    (b : Basis α m n) : Except EngineFault (Improved α m n) :=
  match b.potentials? net with
  | none => .error .basisNotSpanning
  | some p =>
    match b.enteringCell net threshold p with
    | none => .ok ⟨true, b, steps⟩
    | some entering =>
      match budget with
      | 0 => .ok ⟨false, b, steps⟩
      | budget + 1 =>
        match b.path? entering with
        | none => .error (.noClosedLoop entering.1 entering.2)
        | some path =>
          improve net tolerance threshold budget (steps + 1)
            (b.shiftAlongLoop tolerance entering path).2

def initialBasis (net : Network α m n) (tolerance : α) : Basis α m n :=
  ((vogel net tolerance).complete net).2

def optimizeNetwork (s : Settings α) (net : Network α m n) :
    Except EngineFault (Improved α m n) :=
  improve net s.tolerance (s.tolerance * (1 + net.maxAbsCost)) s.maxIterations 0
    (initialBasis net s.tolerance)

def Balance.message : Balance α → String
  | .even => "Optimal shipment plan found"
  | .surplus amount =>
    "Optimal shipment plan found; " ++ Scalar.text amount ++
      " units of surplus supply stay at the sources"
  | .shortage amount =>
    "Optimal shipment plan found; " ++ Scalar.text amount ++ " units of demand cannot be met"

def shippingCost (flows costs : List (List α)) : α :=
  Scalar.sum ((flows.zip costs).flatMap fun (row, prices) => row.zipWith (· * ·) prices)

/-- The plan of the real nodes, without the dummy node. -/
def planOf (s : Settings α) (p : Problem α) (balance : Balance α) (r : Improved α m n) :
    Plan α :=
  let statistics : Statistics :=
    { iterations := r.steps, rows := p.sources, columns := p.destinations }
  if r.isOptimal then
    let flows := (r.basis.flows.toLists.take p.sources).map fun row =>
      (row.take p.destinations).map (Scalar.clean s.tolerance)
    { status := .optimal
      message := balance.message
      flows
      totalCost := shippingCost flows p.costs
      statistics }
  else
    { status := .iterationLimit
      message := "Iteration limit of " ++ toString s.maxIterations ++
        " improvement steps reached before optimality was proven"
      flows := []
      totalCost := 0
      statistics }

def plan (s : Settings α) (p : Problem α) : Except EngineFault (Plan α) :=
  let net := Network.ofProblem p
  let balance := Balance.ofProblem s.tolerance p
  match balance with
  | .even => (optimizeNetwork s net).map (planOf s p balance)
  | .surplus amount =>
    (optimizeNetwork s (net.withDestination amount)).map (planOf s p balance)
  | .shortage amount =>
    (optimizeNetwork s (net.withSource amount)).map (planOf s p balance)

def solve (s : Settings α) (p : Problem α) : Except Failure (Plan α) :=
  accept p.violations (plan s p)

end LeastCost.Transport
