import LeastCost.Grid
import LeastCost.Problem.Transportation

/-!
# Transportation networks

A network of sources and destinations with a cost on every link. Where supplies and demands
differ in total, a dummy node with free links takes the difference.
-/

namespace LeastCost.Transport

variable {α : Type} {m n : Nat}

structure Network (α : Type) (m n : Nat) where
  supply : Family α m
  demand : Family α n
  costs : Grid α m n

variable [Scalar α]

namespace Network

def ofProblem (p : Transportation.Problem α) : Network α p.sources p.destinations :=
  { supply := .ofFn p.supply.get
    demand := .ofFn p.demand.get
    costs := Grid.ofLists p.costs }

def withDestination (net : Network α m n) (amount : α) : Network α m (n + 1) :=
  { supply := net.supply
    demand := net.demand.push amount
    costs := .ofFn fun i j => if h : j.val < n then net.costs i ⟨j, h⟩ else 0 }

def withSource (net : Network α m n) (amount : α) : Network α (m + 1) n :=
  { supply := net.supply.push amount
    demand := net.demand
    costs := .ofFn fun i j => if h : i.val < m then net.costs ⟨i, h⟩ j else 0 }

/-- The greatest magnitude of a link cost. -/
def maxAbsCost (net : Network α m n) : α :=
  (Grid.cells m n).foldl (fun top (i, j) => Scalar.max top (Scalar.abs (net.costs i j))) 0

end Network

inductive Balance (α : Type) where
  | even
  | surplus (amount : α)
  | shortage (amount : α)

/-- Differences within the tolerance, relative to the greater total, count as even. -/
def Balance.ofProblem (tolerance : α) (p : Transportation.Problem α) : Balance α :=
  let supply := p.totalSupply
  let demand := p.totalDemand
  let margin := tolerance * (1 + Scalar.max supply demand)
  let difference := supply - demand
  if margin < difference then .surplus difference
  else if margin < -difference then .shortage (-difference)
  else .even

end LeastCost.Transport
