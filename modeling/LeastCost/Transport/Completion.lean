import LeastCost.Transport.Basis
import LeastCost.Transport.Components
import LeastCost.Transport.Network

/-!
# Completing a basis

A basis with too few cells gets the cheapest cells that join nodes not joined yet, until its
cells form a tree over all nodes. The added cells carry nothing.
-/

namespace LeastCost.Transport

variable {α : Type} {m n : Nat}

/-- Joins the two nodes of a cell, and says whether they were apart. -/
def Components.join (c : Components (m + n)) (cell : Cell m n) : Bool × Components (m + n) :=
  c.unite (sourceNode cell.1) (destinationNode cell.2)

def Basis.components (b : Basis α m n) : Components (m + n) :=
  b.cells.foldl (fun c cell => (c.join cell).2) (.discrete (m + n))

variable [Scalar α]

/-- The non-basic cells, cheapest first and row by row on equal cost. -/
def Basis.candidates (net : Network α m n) (b : Basis α m n) : List (Cell m n) :=
  ((Grid.cells m n).filter (!b.isBasic ·)).mergeSort fun c d =>
    Scalar.precedes (net.costs c.1 c.2) (net.costs d.1 d.2)

/-- Admits the candidates that join nodes not joined yet, until enough are admitted. -/
def Basis.insertJoining (required : Nat) :
    List (Cell m n) → Components (m + n) → Nat → Basis α m n → Nat × Basis α m n
  | [], _, added, b => (added, b)
  | cell :: rest, c, added, b =>
    if required ≤ added then (added, b)
    else
      match c.join cell with
      | (true, c) =>
        insertJoining required rest c (added + 1) ((b.adjust cell fun _ => 0).insert cell)
      | (false, c) => insertJoining required rest c added b

/-- The basis with cells added up to one less than the number of nodes, and how many were
added. -/
def Basis.complete (net : Network α m n) (b : Basis α m n) : Nat × Basis α m n :=
  Basis.insertJoining (m + n - 1 - b.size) (b.candidates net) b.components 0 b

end LeastCost.Transport
