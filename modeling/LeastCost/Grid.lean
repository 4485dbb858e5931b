import LeastCost.Family

/-!
# Grids

Matrices of a fixed shape, read like a function of a row and a column and changed cell by
cell.
-/

namespace LeastCost

structure Grid (β : Type) (m n : Nat) where
  rows : Family (Family β n) m
  deriving DecidableEq

namespace Grid

variable {β : Type} {m n : Nat}

def get (g : Grid β m n) (i : Fin m) (j : Fin n) : β := g.rows i j

instance : CoeFun (Grid β m n) fun _ => Fin m → Fin n → β := ⟨get⟩

def ofFn (f : Fin m → Fin n → β) : Grid β m n := ⟨.ofFn fun i => .ofFn (f i)⟩

def replicate (m n : Nat) (x : β) : Grid β m n := ⟨.replicate m (.replicate n x)⟩

def set (g : Grid β m n) (i : Fin m) (j : Fin n) (x : β) : Grid β m n :=
  ⟨g.rows.set i ((g.rows i).set j x)⟩

/-- The matrix with the entries of these rows, zero where a row is missing or too short. -/
def ofLists [Zero β] (rows : List (List β)) : Grid β m n :=
  ofFn fun i j => (rows.getD i []).getD j 0

def toLists (g : Grid β m n) : List (List β) := g.rows.toList.map Family.toList

def cells (m n : Nat) : List (Fin m × Fin n) :=
  (List.finRange m).flatMap fun i => (List.finRange n).map fun j => (i, j)

@[simp] theorem get_ofFn (f : Fin m → Fin n → β) (i : Fin m) (j : Fin n) :
    ofFn f i j = f i j := by
  simp [get, ofFn]

@[simp] theorem get_replicate (x : β) (i : Fin m) (j : Fin n) : replicate m n x i j = x := by
  simp [get, replicate]

theorem get_set (g : Grid β m n) (i i' : Fin m) (j j' : Fin n) (x : β) :
    g.set i j x i' j' = if i = i' ∧ j = j' then x else g i' j' := by
  simp only [get, set, Family.get_set]
  by_cases hi : i = i'
  · subst hi; simp [Family.get_set]
  · simp [hi]

@[simp] theorem mem_cells (c : Fin m × Fin n) : c ∈ cells m n := by
  simp only [cells, List.mem_flatMap, List.mem_map, List.mem_finRange, true_and]
  exact ⟨c.1, c.2, rfl⟩

end Grid

end LeastCost
