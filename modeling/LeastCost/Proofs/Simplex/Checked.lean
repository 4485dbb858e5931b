import LeastCost.Proofs.Simplex.Canonical
import LeastCost.Simplex.Solve

/-! # The checked simplex method

The same method, but a list is read and written only at a place that it has, and every tableau
is tested for its shape before it is used. Any access out of range and any misshapen tableau
ends the whole computation with `none`.
-/

namespace LeastCost.Simplex

open LinearProgram (Row Solution)

variable {α : Type}

instance (t : Tableau α) : Decidable t.Shaped :=
  decidable_of_iff
    ((∀ row ∈ t.rows, row.length = t.columns + 1) ∧ t.basis.length = t.rows.length ∧
      ∀ b ∈ t.basis, b < t.columns)
    ⟨fun ⟨h, h', h''⟩ => ⟨h, h', h''⟩, fun h => ⟨h.row_length, h.basis_length, h.basis_lt⟩⟩

structure Tableau.Fits (columns : Nat) (t : Tableau α) : Prop extends t.Shaped where
  columns_eq : t.columns = columns
  costs_length : t.costs.length = columns + 1

instance (columns : Nat) (t : Tableau α) : Decidable (t.Fits columns) :=
  decidable_of_iff (t.Shaped ∧ t.columns = columns ∧ t.costs.length = columns + 1)
    ⟨fun ⟨h, h', h''⟩ => ⟨h, h', h''⟩, fun h => ⟨h.toShaped, h.columns_eq, h.costs_length⟩⟩

/-- A start of phase two: a tableau over the real columns, with its basic columns among
them. -/
def Ready [Scalar α] (p : LinearProgram α) (start : Tableau α) : Prop :=
  start.Shaped ∧ start.columns = (layout p).real

instance [Scalar α] (p : LinearProgram α) (start : Tableau α) : Decidable (Ready p start) :=
  inferInstanceAs (Decidable (_ ∧ _))

namespace Checked

def write {β : Type} (xs : List β) (i : Nat) (x : β) : Option (List β) :=
  if i < xs.length then some (xs.set i x) else none

variable [Scalar α]

section Tableaus

def eliminate (pivotRow : List α) (column : Nat) (row : List α) : Option (List α) := do
  let factor ← row[column]?
  if Scalar.isZero factor then return row
  else write (row.zipWith (fun x p => x - factor * p) pivotRow) column 0

variable (t : Tableau α)

def pivot (i column : Nat) : Option (Tableau α) := do
  let row ← t.rows[i]?
  let scale ← row[column]?
  let pivotRow ← write (row.map (· / scale)) column 1
  let rows ← t.rows.zipIdx.mapM fun (row, k) =>
    if k = i then some pivotRow else eliminate pivotRow column row
  let costs ← eliminate pivotRow column t.costs
  let basis ← write t.basis i column
  return { t with rows, basis, costs }

def objective : Option α := do
  let last ← t.costs[t.columns]?
  return -last

def priceRow (columnCosts costs : List α) (line : List α × Nat) : Option (List α) := do
  let price ← columnCosts[line.2]?
  return if Scalar.isZero price then costs else costs.zipWith (fun c a => c - price * a) line.1

def priceOut (columnCosts : List α) : Option (Tableau α) := do
  let costs ← (t.rows.zip t.basis).foldlM (priceRow columnCosts) (columnCosts ++ [0])
  return { t with costs }

def placeValue (count : Nat) (tolerance : α) (values : List α) (line : Nat × Nat) :
    Option (List α) := do
  if line.1 < count then
    let row ← t.rows[line.2]?
    let value ← row[t.columns]?
    write values line.1 (Scalar.clean tolerance value)
  else return values

def basicValues (count : Nat) (tolerance : α) : Option (List α) :=
  t.basis.zipIdx.foldlM (placeValue t count tolerance) (List.replicate count 0)

end Tableaus

section Pivoting

variable (tolerance : α) (t : Tableau α)

/-- The scan is over the reduced costs without their last entry. -/
def enteringColumn : Option (Option Nat) := do
  guard (t.columns ≤ t.costs.length)
  return t.enteringColumn tolerance

/-- The better one of a row and its ratio and the best row so far. -/
def limitBy (column : Nat) (best : Option (Nat × α)) (i : Nat) : Option (Option (Nat × α)) := do
  let row ← t.rows[i]?
  let a ← row[column]?
  if a ≤ tolerance then return best
  else
    let value ← row[t.columns]?
    let ratio := Scalar.max value 0 / a
    match best with
    | none => return some (i, ratio)
    | some (k, least) =>
      let basic ← t.basis[i]?
      let other ← t.basis[k]?
      if ratio < least - tolerance ∨ Scalar.abs (ratio - least) ≤ tolerance ∧ basic < other then
        return some (i, ratio)
      else return some (k, least)

def leavingRow (column : Nat) : Option (Option Nat) := do
  let best ← (List.range t.rows.length).foldlM (limitBy tolerance t column) none
  return best.map (·.1)

def next : Option Move := do
  match ← enteringColumn tolerance t with
  | none => return .optimal
  | some column =>
    match ← leavingRow tolerance t column with
    | none => return .unbounded
    | some row => return .pivot row column

def run (columns : Nat) (tolerance : α) (budget pivots : Nat) (t : Tableau α) :
    Option (Run α) := do
  guard (t.Fits columns)
  match ← next tolerance t with
  | .optimal => return ⟨.optimal, t, pivots⟩
  | .unbounded => return ⟨.unbounded, t, pivots⟩
  | .pivot row column =>
    match budget with
    | 0 => return ⟨.iterationLimit, t, pivots⟩
    | budget + 1 => run columns tolerance budget (pivots + 1) (← pivot t row column)

end Pivoting

section Standard

def blankRow (l : Layout) (r : Row α) : Option (List α) := do
  guard (r.coefficients.length = l.structural ∧ l.structural ≤ l.total)
  return l.blankRow r

def standardRows (l : Layout) : Nat → Nat → List (Row α) → Option (List (Nat × List α))
  | _, _, [] => some []
  | slack, artificial, r :: rest => do
    let blank ← blankRow l r
    match r.sign with
    | .lessEqual =>
      let row ← write blank slack 1
      return (slack, row) :: (← standardRows l (slack + 1) artificial rest)
    | .greaterEqual =>
      let row ← write (← write blank slack (-1)) artificial 1
      return (artificial, row) :: (← standardRows l (slack + 1) (artificial + 1) rest)
    | .equal =>
      let row ← write blank artificial 1
      return (artificial, row) :: (← standardRows l slack (artificial + 1) rest)

def standardize (p : LinearProgram α) : Option (Tableau α) := do
  let l := layout p
  let rows ← standardRows l l.structural l.real (p.rowList.map oriented)
  return {
    rows := rows.map (·.2)
    basis := rows.map (·.1)
    costs := List.replicate (l.total + 1) 0
    columns := l.total }

end Standard

section Artificial

variable (real : Nat)

def expelRow (tolerance : α) (columns : Nat) (t : Tableau α) (i : Nat) : Option (Tableau α) := do
  guard (t.Fits columns)
  let basic ← t.basis[i]?
  if basic < real then return t
  else
    let row ← t.rows[i]?
    let found ← (List.range real).findM? fun j => do
      let x ← row[j]?
      return decide (tolerance < Scalar.abs x)
    match found with
    | some j => pivot t i j
    | none => return t

/-- A row and its basic column are dropped together, so there is one for each row. -/
def expelArtificials (tolerance : α) (t : Tableau α) : Option (Tableau α) := do
  let last ← (List.range t.rows.length).foldlM (expelRow real tolerance t.columns) t
  guard (last.Fits t.columns)
  return last.dropRedundantRows real

def dropArtificialColumns (t : Tableau α) : Option (Tableau α) := do
  let rows ← t.rows.mapM fun row => do
    let value ← row[t.columns]?
    return row.take real ++ [value]
  return { t with rows, columns := real }

end Artificial

section Phases

variable (s : Settings α) (p : LinearProgram α)

def phaseOne : Option (PhaseOne α) := do
  let l := layout p
  let t ← standardize p
  guard t.Shaped
  if l.real < l.total then
    let r ← run l.total s.tolerance s.maxIterations 0 (← priceOut t (phaseOneCosts l))
    match r.verdict with
    | .iterationLimit => return .iterationLimit r.pivots
    | .unbounded => return .unbounded
    | .optimal =>
      if s.tolerance * feasibilityScale p < (← objective r.tableau) then
        return .infeasible r.pivots
      else
        let t ← expelArtificials l.real s.tolerance r.tableau
        guard t.Shaped
        let start ← dropArtificialColumns l.real t
        return .feasible start r.pivots
  else return .feasible t 0

/-- Every basic column is real from here on. -/
def phaseTwo (start : Tableau α) (pivots : Nat) : Option (Run α) := do
  guard (Ready p start)
  run (layout p).real s.tolerance (s.maxIterations - pivots) pivots
    (← priceOut start (phaseTwoCosts p (layout p)))

def optimum (t : Tableau α) : Option (Solution α) := do
  let point ← basicValues t p.variableCount s.tolerance
  let minimum ← objective t
  let value := match p.direction with
    | .minimize => minimum
    | .maximize => -minimum
  return .optimum (Scalar.clean s.tolerance value) point
    (p.rowList.map fun r => Scalar.clean s.tolerance (slack point r))

def optimize : Option (Except EngineFault (Solution α)) := do
  let counters (phaseOne total : Nat) : Statistics :=
    ⟨total, phaseOne, p.rowCount, (layout p).total⟩
  match ← phaseOne s p with
  | .unbounded => return .error .phaseOneUnbounded
  | .iterationLimit pivots =>
    return .ok { limitReached s.maxIterations with statistics := counters 0 pivots }
  | .infeasible pivots => return .ok { infeasible with statistics := counters pivots pivots }
  | .feasible start pivots =>
    let r ← phaseTwo s p start pivots
    let solution ← match r.verdict with
      | .optimal => optimum s p r.tableau
      | .unbounded => some unbounded
      | .iterationLimit => some (limitReached s.maxIterations)
    return .ok { solution with statistics := counters pivots r.pivots }

end Phases

end Checked

end LeastCost.Simplex
