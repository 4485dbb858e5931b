import LeastCost.Grid
import LeastCost.Scalar.Basic

/-!
# Transportation bases

The amounts shipped and the set of basic cells. A basic cell may carry nothing: the basic
cells are what joins the nodes of a network to a tree.
-/

namespace LeastCost.Transport

variable {α : Type} {m n : Nat}

/-- A link of a network, by its source and its destination. -/
abbrev Cell (m n : Nat) := Fin m × Fin n

def sourceNode (i : Fin m) : Fin (m + n) := i.castAdd n

def destinationNode (j : Fin n) : Fin (m + n) := j.natAdd m

structure Basis (α : Type) (m n : Nat) where
  flows : Grid α m n
  basic : Grid Bool m n

namespace Basis

def empty [Zero α] : Basis α m n := ⟨.replicate m n 0, .replicate m n false⟩

variable (b : Basis α m n)

def flow (c : Cell m n) : α := b.flows c.1 c.2

def isBasic (c : Cell m n) : Bool := b.basic c.1 c.2

def cells : List (Cell m n) := (Grid.cells m n).filter b.isBasic

def size : Nat := b.cells.length

def adjust (c : Cell m n) (f : α → α) : Basis α m n :=
  { b with flows := b.flows.set c.1 c.2 (f (b.flow c)) }

def insert (c : Cell m n) : Basis α m n := { b with basic := b.basic.set c.1 c.2 true }

def erase (c : Cell m n) : Basis α m n := { b with basic := b.basic.set c.1 c.2 false }

@[simp] theorem mem_cells {c : Cell m n} : c ∈ b.cells ↔ b.isBasic c = true := by
  simp [cells]

theorem flow_adjust (c d : Cell m n) (f : α → α) :
    (b.adjust c f).flow d = if c = d then f (b.flow c) else b.flow d := by
  simp [adjust, flow, Grid.get_set, Prod.ext_iff]

@[simp] theorem isBasic_adjust (c d : Cell m n) (f : α → α) :
    (b.adjust c f).isBasic d = b.isBasic d := rfl

@[simp] theorem flow_insert (c d : Cell m n) : (b.insert c).flow d = b.flow d := rfl

theorem isBasic_insert (c d : Cell m n) :
    (b.insert c).isBasic d = if c = d then true else b.isBasic d := by
  simp [insert, isBasic, Grid.get_set, Prod.ext_iff]

@[simp] theorem flow_erase (c d : Cell m n) : (b.erase c).flow d = b.flow d := rfl

theorem isBasic_erase (c d : Cell m n) :
    (b.erase c).isBasic d = if c = d then false else b.isBasic d := by
  simp [erase, isBasic, Grid.get_set, Prod.ext_iff]

end Basis

end LeastCost.Transport
