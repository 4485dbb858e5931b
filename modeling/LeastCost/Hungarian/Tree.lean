import LeastCost.Hungarian.Labels
import LeastCost.Selection

/-!
# Alternating trees

The tree of a row that is to be matched holds the rows reached from it over cells of reduced
cost zero, alternating with matched cells. One pass offers the cells of the newest row to the
columns outside, shifts the labels by the least slack on offer, and takes in the column that
had it. The tree is done at a column that is free.
-/

namespace LeastCost.Hungarian

variable {α : Type} {n : Nat}

/-- The least reduced cost of an outside column over the rows of the tree, and the tree
columns on the way from the row that has it back to the root. -/
structure Offer (α : Type) (n : Nat) where
  slack : α
  path : List (Fin n)

/-- An alternating tree. A column without offer is out of reach. -/
structure Tree (α : Type) (n : Nat) where
  labels : Labels α n
  rows : Family Bool n
  columns : Family Bool n
  offers : Family (Option (Offer α n)) n
  /-- The row that came in last. -/
  newest : Fin n
  /-- The tree columns from the newest row back to the root. -/
  path : List (Fin n)
  /-- How many shifts exceeded the tolerance. -/
  adjustments : Nat

namespace Tree

def root (labels : Labels α n) (row : Fin n) : Tree α n :=
  { labels
    rows := (Family.replicate n false).set row true
    columns := .replicate n false
    offers := .replicate n none
    newest := row
    path := []
    adjustments := 0 }

variable [Scalar α] (t : Tree α n)

/-- The better of the offer a column has and the cell of the newest row. Only a smaller slack
is better; without an offer any bounded one is. -/
def offerTo (costs : Grid α n n) (j : Fin n) : Option (Offer α n) :=
  let reduced := t.labels.reduced costs t.newest j
  match t.offers j with
  | none => if Scalar.isBounded reduced then some ⟨reduced, t.path⟩ else none
  | some o => if reduced < o.slack then some ⟨reduced, t.path⟩ else some o

def spread (costs : Grid α n n) : Tree α n :=
  { t with
    offers := .ofFn fun j => if t.columns j then t.offers j else t.offerTo costs j }

def openOffers : List (Fin n × Offer α n) :=
  (List.finRange n).filterMap fun j =>
    if t.columns j then none
    else ((t.offers j).filter fun o => Scalar.isBounded o.slack).map (j, ·)

/-- The first outside column of least slack. -/
def nearest : Option (Fin n × Offer α n) :=
  Selection.firstLeast (fun (_, o) => o.slack) t.openOffers

/-- Raises the labels of tree rows and lowers those of tree columns, which brings the outside
columns nearer and leaves the cells of the tree as they are. -/
def shift (tolerance amount : α) : Tree α n :=
  { t with
    labels :=
      { row := .ofFn fun i =>
          if t.rows i then t.labels.row i + amount else t.labels.row i
        column := .ofFn fun j =>
          if t.columns j then t.labels.column j - amount else t.labels.column j }
    offers := .ofFn fun j =>
      if t.columns j then t.offers j
      else (t.offers j).map fun o => { o with slack := o.slack - amount }
    adjustments := if tolerance < amount then t.adjustments + 1 else t.adjustments }

def enter (column : Fin n) (path : List (Fin n)) (row : Fin n) : Tree α n :=
  { t with
    rows := t.rows.set row true
    columns := t.columns.set column true
    newest := row
    path := column :: path }

end Tree

variable [Scalar α]

/-- Grows a tree to a free column, which comes back with the columns on its way to the root.
Every pass takes in one column. -/
def grow (tolerance : α) (costs : Grid α n n) (rowOf : Family (Option (Fin n)) n) :
    Nat → Tree α n → Except EngineFault (Tree α n × List (Fin n))
  | 0, _ => .error .lostRow
  | passes + 1, t =>
    let spread := t.spread costs
    match spread.nearest with
    | none => .error (.overflow .labelAdjustment)
    | some (column, offer) =>
      if Scalar.isFinite offer.slack then
        let shifted := spread.shift tolerance offer.slack
        match rowOf column with
        | none => .ok (shifted, column :: offer.path)
        | some row => grow tolerance costs rowOf passes (shifted.enter column offer.path row)
      else .error (.overflow .labelAdjustment)

end LeastCost.Hungarian
