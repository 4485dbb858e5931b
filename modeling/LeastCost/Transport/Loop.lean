import LeastCost.Selection
import LeastCost.Transport.Network
import LeastCost.Transport.Traversal

/-!
# Potentials and loops

Potentials price the nodes so that basic cells cost nothing beyond them. A cell that costs
less than its potentials closes a loop of basic cells, along which shipping more on the cell
lowers the total cost.
-/

namespace LeastCost.Transport

variable {α : Type} {m n : Nat}

structure Potentials (α : Type) (m n : Nat) where
  row : Family α m
  column : Family α n

/-- The nodes from which the nodes around a source were reached, up to a destination. -/
def Basis.reachedFrom? (b : Basis α m n) (i : Fin m) (j : Fin n) :
    Option (Family (Option (Option (Fin (m + n)))) (m + n)) :=
  (Search.start (sourceNode i) none).run b.adjacency (fun node _ _ => some (some node))
    (· == destinationNode j)

/-- The basic cells from a source to a destination, first the one at the source. -/
def Basis.path? (b : Basis α m n) (c : Cell m n) : Option (List (Cell m n)) := do
  let target := destinationNode c.2
  let previous ← b.reachedFrom? c.1 c.2
  if (previous target).isSome then
    let nodes := (Search.wayBack previous (m + n) target).reverse
    (nodes.zip nodes.tail).mapM fun (x, y) => cellBetween? x y
  else none

/-- The cells at even positions of a path, which ship less when the loop ships more. -/
def donors {ι : Type} : List ι → List ι
  | [] => []
  | [donor] => [donor]
  | donor :: _ :: rest => donor :: donors rest

def Cell.before (c d : Cell m n) : Bool := decide (c.1 < d.1 ∨ c.1 = d.1 ∧ c.2 < d.2)

variable [Scalar α]

/-- The prices of the nodes that basic cells connect with the first one, which costs nothing. -/
def Basis.prices? (net : Network α m n) (b : Basis α m n) :
    Option (Family (Option α) (m + n)) :=
  if h : 0 < m + n then
    (Search.start ⟨0, h⟩ 0).run b.adjacency
      (fun x price y => (cellBetween? x y).map fun c => net.costs c.1 c.2 - price)
      (fun _ => false)
  else none

/-- Potentials with `row[0] = 0` whose sums are the costs of the basic cells, if these join
all nodes. -/
def Basis.potentials? (net : Network α m n) (b : Basis α m n) : Option (Potentials α m n) := do
  let prices ← b.prices? net
  if prices.all Option.isSome then
    some
      { row := .ofFn fun i => (prices (sourceNode i)).getD 0
        column := .ofFn fun j => (prices (destinationNode j)).getD 0 }
  else none

/-- The cost of a cell beyond its potentials. -/
def Potentials.reduced (net : Network α m n) (p : Potentials α m n) (c : Cell m n) : α :=
  net.costs c.1 c.2 - p.row c.1 - p.column c.2

def Basis.enteringCell (net : Network α m n) (threshold : α) (b : Basis α m n)
    (p : Potentials α m n) : Option (Cell m n) :=
  Selection.firstLeast (p.reduced net)
    ((Grid.cells m n).filter fun c =>
      !b.isBasic c && decide (p.reduced net c < -threshold))

/-- The donor of least flow. Flows within the tolerance of each other are a tie, which the
earlier cell wins. -/
def Basis.leavingCell (tolerance : α) (b : Basis α m n) (path : List (Cell m n)) :
    Option (Cell m n) :=
  Selection.choose
    (fun next best =>
      decide (b.flow next < b.flow best - tolerance) ||
        (decide (Scalar.abs (b.flow next - b.flow best) ≤ tolerance) && Cell.before next best))
    (donors path)

/-- Ships less on a cell and more on the next one, by turns. -/
def Basis.alternate (amount : α) : List (Cell m n) → Basis α m n → Basis α m n
  | [], b => b
  | [donor], b => b.adjust donor (· - amount)
  | donor :: taker :: rest, b =>
    alternate amount rest ((b.adjust donor (· - amount)).adjust taker (· + amount))

/-- Ships the flow of the leaving cell on the entering cell instead, around the loop. Comes
back with that amount. -/
def Basis.shiftAlongLoop (tolerance : α) (entering : Cell m n) (path : List (Cell m n))
    (b : Basis α m n) : α × Basis α m n :=
  match b.leavingCell tolerance path with
  | none => (0, b)
  | some leaving =>
    let amount := b.flow leaving
    let shifted := ((b.alternate amount path).adjust entering (· + amount)).insert entering
    (amount, (shifted.adjust leaving fun _ => 0).erase leaving)

end LeastCost.Transport
