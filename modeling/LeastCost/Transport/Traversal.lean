import LeastCost.Transport.Basis

/-!
# Traversal

A search goes through a graph from one of its nodes, nearest nodes first. A node that is reached
gets a mark and joins a queue, and each node of the queue hands marks on to its neighbours that
have none. Searched are the nodes of a network, which basic cells join.
-/

namespace LeastCost.Transport

variable {β : Type} {k : Nat}

/-- The marks of the nodes reached so far, and the nodes among them whose neighbours are still to
be visited. -/
structure Search (β : Type) (k : Nat) where
  marks : Family (Option β) k
  queue : List (Fin k)

namespace Search

def start (node : Fin k) (mark : β) : Search β k :=
  { marks := (Family.replicate k none).set node (some mark)
    queue := [node] }

/-- Marks a node that has no mark and lets it join the queue. Fails if there is no mark for it. -/
def visit (mark : Fin k → Option β) (s : Search β k) (next : Fin k) : Option (Search β k) :=
  if (s.marks next).isSome then some s
  else
    (mark next).map fun value =>
      { marks := s.marks.set next (some value)
        queue := s.queue ++ [next] }

/-- How many nodes the queue can still hand out, as each node joins it once at most. -/
def remaining (s : Search β k) : Nat := s.marks.countP Option.isNone + s.queue.length

theorem remaining_visit {mark : Fin k → Option β} {s s' : Search β k} {next : Fin k}
    (h : s.visit mark next = some s') : s'.remaining ≤ s.remaining := by
  rw [visit] at h
  split at h
  · obtain rfl := Option.some.inj h
    exact Nat.le_refl _
  · next hnext =>
    obtain ⟨value, -, rfl⟩ := Option.map_eq_some_iff.1 h
    have hnone : (s.marks next).isNone = true := by simpa using hnext
    have hlt := Family.countP_set_lt (x := some value) hnone rfl
    simp only [remaining, List.length_append, List.length_singleton]
    omega

theorem remaining_foldlM {mark : Fin k → Option β} {s s' : Search β k} {nodes : List (Fin k)}
    (h : nodes.foldlM (visit mark) s = some s') : s'.remaining ≤ s.remaining := by
  induction nodes generalizing s with
  | nil =>
    obtain rfl : s = s' := Option.some.inj h
    exact Nat.le_refl _
  | cons next nodes ih =>
    rw [List.foldlM_cons] at h
    obtain ⟨t, ht, h⟩ := Option.bind_eq_some_iff.1 h
    exact Nat.le_trans (ih h) (remaining_visit ht)

/-- The marks when the queue is empty or hands out a goal. A mark is made from the node that hands
it on, its mark, and the neighbour. -/
def run (neighbours : Fin k → List (Fin k)) (mark : Fin k → β → Fin k → Option β)
    (isGoal : Fin k → Bool) (s : Search β k) : Option (Family (Option β) k) :=
  match hqueue : s.queue with
  | [] => some s.marks
  | node :: rest =>
    if isGoal node then some s.marks
    else
      match s.marks node with
      | none => none
      | some value =>
        match hvisit : (neighbours node).foldlM (visit (mark node value))
            { s with queue := rest } with
        | none => none
        | some s' =>
          have descent : s'.remaining < s.remaining := by
            have hle := remaining_foldlM hvisit
            simp only [remaining, hqueue, List.length_cons] at hle ⊢
            omega
          run neighbours mark isGoal s'
  termination_by s.remaining

/-- The nodes from a node back to the start, where the mark of each node is the node that handed it
on. No way back visits more nodes than there are. -/
def wayBack (previous : Family (Option (Option (Fin k))) k) (budget : Nat) (node : Fin k) :
    List (Fin k) :=
  match budget, previous node with
  | budget + 1, some (some next) => node :: wayBack previous budget next
  | _, _ => [node]

end Search

variable {α : Type} {m n : Nat}

/-- The cell between a source and a destination, whichever of them comes first. -/
def cellBetween? (x y : Fin (m + n)) : Option (Cell m n) :=
  if hx : x.val < m then
    if hy : m ≤ y.val then some (⟨x, hx⟩, ⟨y - m, by omega⟩) else none
  else
    if hy : y.val < m then some (⟨y, hy⟩, ⟨x - m, by omega⟩) else none

def Cell.across? (c : Cell m n) (x : Fin (m + n)) : Option (Fin (m + n)) :=
  if x = sourceNode c.1 then some (destinationNode c.2)
  else if x = destinationNode c.2 then some (sourceNode c.1)
  else none

def Basis.adjacency (b : Basis α m n) : Family (List (Fin (m + n))) (m + n) :=
  .ofFn fun x => b.cells.filterMap (Cell.across? · x)

end LeastCost.Transport
