import LeastCost.Failure
import LeastCost.Simplex.Pivoting
import LeastCost.Simplex.Artificial

/-!
# The two-phase simplex method

Phase one minimizes the sum of the artificial variables, which is zero exactly for feasible
programs. Phase two minimizes the objective, negated for a program that maximizes, from the
feasible basis that phase one ends with. Both phases share one limit of pivots.
-/

namespace LeastCost.Simplex

variable {α : Type} [Scalar α]

open LinearProgram (Solution)

def phaseOneCosts (l : Layout) : List α :=
  List.replicate l.real 0 ++ List.replicate (l.total - l.real) 1

/-- The objective to minimize, with zero costs for the slack columns. -/
def phaseTwoCosts (p : LinearProgram α) (l : Layout) : List α :=
  p.objective.map (fun c => match p.direction with
    | .minimize => c
    | .maximize => -c) ++
    List.replicate (l.real - l.structural) 0

/-- The size of the right-hand sides, to which the sum of the artificial variables is
compared. -/
def feasibilityScale (p : LinearProgram α) : α := 1 + Scalar.sum (p.rhs.map Scalar.abs)

inductive PhaseOne (α : Type) where
  | feasible (start : Tableau α) (pivots : Nat)
  | infeasible (pivots : Nat)
  | iterationLimit (pivots : Nat)
  | unbounded

/-- Looks for a basis of real columns. A program without artificial columns starts with
one. -/
def phaseOne (s : Settings α) (p : LinearProgram α) : PhaseOne α :=
  let l := layout p
  let t := standardize p
  if l.real < l.total then
    let r := run s.tolerance s.maxIterations 0 (t.priceOut (phaseOneCosts l))
    match r.verdict with
    | .iterationLimit => .iterationLimit r.pivots
    | .unbounded => .unbounded
    | .optimal =>
      if s.tolerance * feasibilityScale p < r.tableau.objective then .infeasible r.pivots
      else
        .feasible
          ((r.tableau.expelArtificials l.real s.tolerance).dropArtificialColumns l.real)
          r.pivots
  else .feasible t 0

def phaseTwo (s : Settings α) (p : LinearProgram α) (start : Tableau α) (pivots : Nat) : Run α :=
  run s.tolerance (s.maxIterations - pivots) pivots (start.priceOut (phaseTwoCosts p (layout p)))

/-- How far a row is from its bound at a point, positive inside. -/
def slack (x : List α) (r : LinearProgram.Row α) : α :=
  let activity := Scalar.dot r.coefficients x
  match r.sign with
  | .greaterEqual => activity - r.bound
  | .lessEqual | .equal => r.bound - activity

/-- The optimum that the last tableau shows. -/
def optimum (s : Settings α) (p : LinearProgram α) (t : Tableau α) : Solution α :=
  let point := t.basicValues p.variableCount s.tolerance
  let value := match p.direction with
    | .minimize => t.objective
    | .maximize => -t.objective
  .optimum (Scalar.clean s.tolerance value) point
    (p.rowList.map fun r => Scalar.clean s.tolerance (slack point r))

def infeasible : Solution α :=
  { status := .infeasible
    message := "Problem is infeasible: no solution satisfies all constraints" }

def unbounded : Solution α :=
  { status := .unbounded
    message := "Problem is unbounded: objective can be improved infinitely" }

def limitReached (limit : Nat) : Solution α :=
  { status := .iterationLimit
    message := "Iteration limit of " ++ toString limit ++
      " pivots reached before optimality was proven" }

/-- Runs both phases on a well-formed program. -/
def optimize (s : Settings α) (p : LinearProgram α) : Except EngineFault (Solution α) :=
  let counters (phaseOne total : Nat) : Statistics :=
    ⟨total, phaseOne, p.rowCount, (layout p).total⟩
  match phaseOne s p with
  | .unbounded => .error .phaseOneUnbounded
  | .iterationLimit pivots =>
    .ok { limitReached s.maxIterations with statistics := counters 0 pivots }
  | .infeasible pivots => .ok { infeasible with statistics := counters pivots pivots }
  | .feasible start pivots =>
    let r := phaseTwo s p start pivots
    let solution := match r.verdict with
      | .optimal => optimum s p r.tableau
      | .unbounded => unbounded
      | .iterationLimit => limitReached s.maxIterations
    .ok { solution with statistics := counters pivots r.pivots }

def solve (s : Settings α) (p : LinearProgram α) : Except Failure (Solution α) :=
  accept p.violations (optimize s p)

end LeastCost.Simplex
