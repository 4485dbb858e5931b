import LeastCost.Family

/-!
# Disjoint sets

A partition of `n` nodes into classes that are only ever united. Every node points at a node
of its class that is not greater, so the walk to the root of a class goes down and the root
is the least node.
-/

namespace LeastCost.Transport

structure Components (n : Nat) where
  parent : Family (Fin n) n
  parent_le : ∀ i : Fin n, parent i ≤ i

namespace Components

variable {n : Nat}

def discrete (n : Nat) : Components n :=
  { parent := .ofFn id
    parent_le := by simp }

/-- Points a node at another that is not greater. -/
def redirect (c : Components n) (node target : Fin n) (h : target ≤ node) : Components n :=
  { parent := c.parent.set node target
    parent_le := by
      intro i
      rw [Family.get_set]
      split
      · next hi => exact hi ▸ h
      · exact c.parent_le i }

theorem parent_redirect (c : Components n) {node target : Fin n} (h : target ≤ node)
    (i : Fin n) :
    (c.redirect node target h).parent i = if node = i then target else c.parent i :=
  Family.get_set ..

/-- The root of a node's class. Each node on the way is pointed at the node two steps
further. -/
def find (c : Components n) (node : Fin n) : Fin n × Components n :=
  let parent := c.parent node
  if h : parent = node then (node, c)
  else
    have below : parent < node := Fin.lt_iff_le_and_ne.2 ⟨c.parent_le node, h⟩
    let target := c.parent parent
    have descent : target < node := Fin.lt_of_le_of_lt (c.parent_le parent) below
    (c.redirect node target (Fin.le_of_lt descent)).find target
  termination_by node.val

/-- Unites the classes of two nodes under the lesser root, and says whether they were
different. -/
def unite (c : Components n) (a b : Fin n) : Bool × Components n :=
  let (rootA, c) := c.find a
  let (rootB, c) := c.find b
  if rootA = rootB then (false, c)
  else if h : rootA ≤ rootB then (true, c.redirect rootB rootA h)
  else (true, c.redirect rootA rootB (Fin.le_of_lt (Fin.not_le.1 h)))

end Components

end LeastCost.Transport
