import LeastCost.Proofs.Transport.Traversal

/-! # Reached nodes

A search of a network never fails, since there is a cell between neighbours. It finds all nodes
that the basic cells connect with its start, so there are potentials exactly when the basic cells
connect all nodes, and a path exactly when they connect the two nodes of a cell.
-/

namespace LeastCost.Transport.Basis

variable {α : Type} {m n : Nat} {b : Basis α m n} {c : Cell m n} {x y : Node m n}

theorem exists_reachedFrom (b : Basis α m n) (c : Cell m n) :
    ∃ previous, b.reachedFrom? c.1 c.2 = some previous ∧
      ((previous (destinationNode c.2)).isSome ↔ Joined b.basics c) := by
  have hsome : (b.reachedFrom? c.1 c.2).isSome :=
    (Search.queued_start b.adjacency (sourceNode c.1) none).isSome_run fun _ _ _ _ => rfl
  obtain ⟨previous, hrun⟩ := Option.isSome_iff_exists.mp hsome
  refine ⟨previous, hrun, ?_⟩
  rw [Search.isSome_mark_iff hrun fun a => beq_iff_eq.mp]
  exact reflTransGen_adjacency_iff (x := .inl c.1) (y := .inr c.2)

/-- There is a path exactly between connected nodes. -/
theorem isSome_path_iff : (b.path? c).isSome ↔ Joined b.basics c := by
  obtain ⟨previous, hrun, htarget⟩ := b.exists_reachedFrom c
  rw [← htarget]
  constructor
  · intro h
    rw [path?, hrun] at h
    by_contra hnone
    simp [hnone] at h
  · intro h
    obtain ⟨path, hpath, -⟩ := exists_isPath_of_reached hrun h
    exact Option.isSome_of_eq_some hpath

variable [Scalar α]

theorem exists_reached_prices (net : Network α m n) (b : Basis α m n) (hm : 0 < m) :
    ∃ prices, b.prices? net = some prices ∧
      ∀ y : Node m n, (prices y.number).isSome ↔
        (cellGraph b.basics).Reachable (.inl ⟨0, hm⟩) y := by
  have hnodes : 0 < m + n := Nat.add_pos_left hm n
  have hmark : ∀ (a : Fin (m + n)) (price : α), ∀ a' ∈ b.adjacency a,
      ((cellBetween? a a').map fun c => net.costs c.1 c.2 - price).isSome := by
    intro a price a' hmem
    obtain ⟨x, rfl⟩ := Node.exists_number a
    obtain ⟨y, rfl⟩ := Node.exists_number a'
    obtain ⟨c, -, hj⟩ := cellGraph_adj_iff_joins.mp (mem_adjacency.mp hmem)
    rw [cellBetween?_eq_some_iff.mpr hj]
    rfl
  have hprices : b.prices? net = (Search.start ⟨0, hnodes⟩ 0).run b.adjacency
      (fun a price a' => (cellBetween? a a').map fun c => net.costs c.1 c.2 - price)
      (fun _ => false) := dif_pos hnodes
  have hsome : (b.prices? net).isSome := by
    rw [hprices]
    exact (Search.queued_start b.adjacency ⟨0, hnodes⟩ 0).isSome_run hmark
  obtain ⟨prices, hrun⟩ := Option.isSome_iff_exists.mp hsome
  refine ⟨prices, hrun, fun y => ?_⟩
  rw [hprices] at hrun
  rw [Search.isSome_mark_iff hrun fun a ha => by cases ha]
  exact reflTransGen_adjacency_iff (x := .inl ⟨0, hm⟩)

variable {net : Network α m n}

/-- There are potentials exactly when all nodes are connected. -/
theorem isSome_potentials_iff (hm : 0 < m) :
    (b.potentials? net).isSome ↔ (cellGraph b.basics).Connected := by
  obtain ⟨prices, hprices, hfound⟩ := b.exists_reached_prices net hm
  have hall : (b.potentials? net).isSome ↔ prices.all Option.isSome = true := by
    simp only [potentials?, hprices, Option.bind_eq_bind, Option.bind_some]
    split
    · next h => exact iff_of_true rfl h
    · next h => exact iff_of_false (by simp) h
  rw [hall, Family.all_iff, Node.number_bijective.surjective.forall]
  simp only [hfound]
  constructor
  · intro h
    have : Nonempty (Node m n) := ⟨.inl ⟨0, hm⟩⟩
    exact ⟨fun x y => (h x).symm.trans (h y)⟩
  · intro h y
    exact h _ y

end LeastCost.Transport.Basis
