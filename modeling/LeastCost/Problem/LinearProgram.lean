import LeastCost.Problem.Outcome
import LeastCost.Problem.Sign

/-!
# Linear programs

A linear objective over non-negative variables, subject to rows that bound linear forms from
above, from below, or exactly. The rows, their signs and their right-hand sides are parallel
lists, so that a mismatch of lengths is still there to be reported.
-/

namespace LeastCost

inductive Direction where
  | minimize
  | maximize
  deriving DecidableEq, Repr

/-- A linear program over non-negative variables. -/
structure LinearProgram (α : Type) where
  direction : Direction
  objective : List α
  constraints : List (List α) := []
  signs : List Sign := []
  rhs : List α := []
  deriving DecidableEq

namespace LinearProgram

variable {α : Type} (p : LinearProgram α)

def addConstraint (coefficients : List α) (sign : Sign) (bound : α) : LinearProgram α :=
  { p with
    constraints := p.constraints ++ [coefficients]
    signs := p.signs ++ [sign]
    rhs := p.rhs ++ [bound] }

def variableCount : Nat := p.objective.length

def rowCount : Nat := p.constraints.length

structure Row (α : Type) where
  coefficients : List α
  sign : Sign
  bound : α

/-- The constraints in order, as far as all three parallel lists reach. -/
def rowList : List (Row α) :=
  (p.constraints.zip (p.signs.zip p.rhs)).map fun (coefficients, sign, bound) =>
    ⟨coefficients, sign, bound⟩

/-- The outcome of a linear program. Only an optimum has a value, a point, and slacks. -/
structure Solution (α : Type) where
  status : Status
  message : String
  value : Option α := none
  point : List α := []
  slack : List α := []
  statistics : Statistics := {}
  deriving DecidableEq

def Solution.optimum {α : Type} (value : α) (point slack : List α) : Solution α :=
  { status := .optimal
    message := "Optimal solution found"
    value := some value
    point
    slack }

variable [Scalar α]

def objectiveValue (x : List α) : α := Scalar.dot p.objective x

def activities (x : List α) : List α := p.constraints.map (Scalar.dot · x)

end LinearProgram

end LeastCost
