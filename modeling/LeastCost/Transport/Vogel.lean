import LeastCost.Selection
import LeastCost.Transport.Basis
import LeastCost.Transport.Network

/-!
# Vogel's approximation

The first plan ships as much as possible on the cheapest link of the row or column that would
lose most by its second cheapest one, then closes the exhausted line. One line is closed for
each link used, so a plan that exhausts every line has `m + n - 1` basic cells.
-/

namespace LeastCost.Transport

variable {α : Type} {m n : Nat}

inductive Line (m n : Nat) where
  | row (i : Fin m)
  | column (j : Fin n)
  deriving DecidableEq

/-- A plan in the making: what is left to ship, and the lines that are still open. -/
structure Draft (α : Type) (m n : Nat) where
  supply : Family α m
  demand : Family α n
  openRows : Family Bool m
  openColumns : Family Bool n
  basis : Basis α m n

namespace Draft

def start [Zero α] (net : Network α m n) : Draft α m n :=
  { supply := net.supply
    demand := net.demand
    openRows := .replicate m true
    openColumns := .replicate n true
    basis := .empty }

variable (d : Draft α m n)

def lines : List (Line m n) :=
  ((List.finRange m).filter d.openRows).map .row ++
    ((List.finRange n).filter d.openColumns).map .column

/-- The links of a line whose other end is open. -/
def links : Line m n → List (Cell m n)
  | .row i => ((List.finRange n).filter d.openColumns).map (i, ·)
  | .column j => ((List.finRange m).filter d.openRows).map (·, j)

def openRowCount : Nat := (List.finRange m).countP d.openRows

end Draft

variable [Scalar α]

/-- The gap between the two least costs, or the cost itself where only one is left. -/
def penalty : List α → Option α
  | [] => none
  | [cost] => some cost
  | first :: second :: rest =>
    let (lowest, next) := rest.foldl
      (fun (lowest, next) cost =>
        if cost < lowest then (cost, lowest)
        else if cost < next then (lowest, cost)
        else (lowest, next))
      (if second < first then (second, first) else (first, second))
    some (next - lowest)

namespace Draft

variable (net : Network α m n) (tolerance : α) (d : Draft α m n)

def linkCost (c : Cell m n) : α := net.costs c.1 c.2

def penalties : List (Line m n × α) :=
  d.lines.filterMap fun line => (penalty ((d.links line).map (linkCost net))).map (line, ·)

/-- The first cheapest link of the line with the greatest penalty. A penalty has to exceed an
earlier one by more than the tolerance to count as greater. -/
def nextCell : Option (Cell m n) :=
  match Selection.choose (fun next best => decide (best.2 + tolerance < next.2))
      (d.penalties net) with
  | none => none
  | some (line, _) => Selection.firstLeast (linkCost net) (d.links line)

/-- Ships as much as possible on a link and closes a line. An exhausted row closes first, but
the last row stays open while there are columns; drift of rounding closes the row. -/
def allocate (c : Cell m n) : Draft α m n :=
  let amount := Scalar.min (d.supply c.1) (d.demand c.2)
  let supply := d.supply.set c.1 (d.supply c.1 - amount)
  let demand := d.demand.set c.2 (d.demand c.2 - amount)
  let rowDone := decide (supply c.1 ≤ tolerance)
  let columnDone := decide (demand c.2 ≤ tolerance)
  let closesColumn := columnDone && (!rowDone || decide (d.openRowCount ≤ 1))
  { supply
    demand
    openRows := if closesColumn then d.openRows else d.openRows.set c.1 false
    openColumns := if closesColumn then d.openColumns.set c.2 false else d.openColumns
    basis := (d.basis.adjust c (· + amount)).insert c }

/-- Allocates until no open line has a link left. -/
def fill : Nat → Draft α m n → Draft α m n
  | 0, d => d
  | passes + 1, d =>
    match d.nextCell net tolerance with
    | none => d
    | some c => fill passes (d.allocate tolerance c)

end Draft

/-- The first plan. Each pass closes one line, so no more passes are needed than there are
lines. -/
def vogel (net : Network α m n) (tolerance : α) : Basis α m n :=
  (Draft.fill net tolerance (m + n) (Draft.start net)).basis

end LeastCost.Transport
