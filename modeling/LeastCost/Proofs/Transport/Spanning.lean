import LeastCost.Proofs.Transport.Completion
import LeastCost.Proofs.Transport.Exchange

/-! # Spanning trees of cells

A forest over all nodes is a tree exactly when it has one cell less than there are nodes. A
completed forest has that many cells, or has no two nodes left to join; an exchange of cells
changes their set but not their number.
-/

namespace LeastCost.Transport

variable {m n : Nat} {cells : Set (Cell m n)} {c d : Cell m n}

theorem edgeSet_cellGraph (cells : Set (Cell m n)) :
    (cellGraph cells).edgeSet = Cell.edge '' cells := by
  ext e
  induction e using Sym2.ind with
  | h x y =>
    rw [SimpleGraph.mem_edgeSet, cellGraph_adj_iff, Set.mem_image]
    refine exists_congr fun c => and_congr_right fun _ => ?_
    rw [Cell.edge, Sym2.eq_iff]
    constructor
    · rintro (⟨rfl, rfl⟩ | ⟨rfl, rfl⟩)
      · exact Or.inl ⟨rfl, rfl⟩
      · exact Or.inr ⟨rfl, rfl⟩
    · rintro (⟨rfl, rfl⟩ | ⟨rfl, rfl⟩)
      · exact Or.inl ⟨rfl, rfl⟩
      · exact Or.inr ⟨rfl, rfl⟩

theorem ncard_edgeSet_cellGraph (cells : Set (Cell m n)) :
    (cellGraph cells).edgeSet.ncard = cells.ncard := by
  rw [edgeSet_cellGraph, Set.ncard_image_of_injective cells Cell.edge_injective]

theorem ncard_add_one_of_isTree (h : (cellGraph cells).IsTree) : cells.ncard + 1 = m + n := by
  have hcard := (SimpleGraph.isTree_iff_connected_and_card.mp h).2
  rw [Nat.card_coe_set_eq, ncard_edgeSet_cellGraph] at hcard
  simpa using hcard

theorem isTree_of_ncard (h : (cellGraph cells).IsAcyclic) (hm : 0 < m)
    (hcard : m + n ≤ cells.ncard + 1) : (cellGraph cells).IsTree := by
  have : Nonempty (Node m n) := ⟨.inl ⟨0, hm⟩⟩
  obtain ⟨tree, hle, -, htree⟩ :=
    SimpleGraph.connected_top.exists_isTree_le_of_le_of_isAcyclic le_top h
  have htreeCard := (SimpleGraph.isTree_iff_connected_and_card.mp htree).2
  have hedges : (cellGraph cells).edgeSet = tree.edgeSet := by
    apply Set.eq_of_subset_of_ncard_le (SimpleGraph.edgeSet_mono hle)
    rw [ncard_edgeSet_cellGraph]
    simp only [Nat.card_coe_set_eq, Nat.card_eq_fintype_card, Fintype.card_sum,
      Fintype.card_fin] at htreeCard
    omega
  rwa [SimpleGraph.edgeSet_inj.mp hedges]

theorem connected_of_joined (hm : 0 < m) (hn : 0 < n) (h : ∀ c, Joined cells c) :
    (cellGraph cells).Connected := by
  have : Nonempty (Node m n) := ⟨.inl ⟨0, hm⟩⟩
  -- Every node is connected to the first destination, sources by a cell of their own.
  have hfirst : ∀ x, (cellGraph cells).Reachable x (.inr ⟨0, hn⟩) := by
    rintro (i | j)
    · exact h (i, ⟨0, hn⟩)
    · exact (h (⟨0, hm⟩, j)).symm.trans (h (⟨0, hm⟩, ⟨0, hn⟩))
  exact ⟨fun x y => (hfirst x).trans (hfirst y).symm⟩

namespace Basis

variable {α : Type} {b : Basis α m n}

/-- The basic cells connect all nodes, without a cycle. -/
def Spans (b : Basis α m n) : Prop := (cellGraph b.basics).IsTree

theorem nodup_gridCells (m n : Nat) : (Grid.cells m n).Nodup :=
  (List.nodup_finRange m).product (List.nodup_finRange n)

theorem size_eq_ncard (b : Basis α m n) : b.size = b.basics.ncard := by
  have he : b.basics = (b.cells.toFinset : Set (Cell m n)) := by
    ext c
    simp
  have hnodup : b.cells.Nodup := (nodup_gridCells m n).filter _
  rw [he, Set.ncard_coe_finset, List.toFinset_card_of_nodup hnodup]
  rfl

theorem Spans.size_add_one (h : b.Spans) : b.size + 1 = m + n := by
  rw [size_eq_ncard]
  exact ncard_add_one_of_isTree h

section Completion

variable [Scalar α] {comps : Components (m + n)} {required added : Nat}
  {candidates : List (Cell m n)} {net : Network α m n}

theorem subset_insertJoining (hc : comps.Tracks b.basics) :
    b.basics ⊆ (insertJoining required candidates comps added b).2.basics := by
  apply insertJoining_induction (motive := fun b' => b.basics ⊆ b'.basics) _ hc subset_rfl
  intro b' cell hb _
  rw [basics_insert, basics_adjust]
  exact hb.trans (Set.subset_insert cell b'.basics)

/-- The candidates are gone over until enough are admitted or the ends of all are connected. -/
theorem insertJoining_exhausts (required added : Nat) (candidates : List (Cell m n))
    (hc : comps.Tracks b.basics) :
    let r := insertJoining required candidates comps added b
    r.2.basics.ncard + added = b.basics.ncard + r.1 ∧
      (required ≤ r.1 ∨ ∀ cell ∈ candidates, Joined r.2.basics cell) := by
  induction candidates generalizing comps added b with
  | nil => exact ⟨rfl, Or.inr (by simp)⟩
  | cons cell candidates ih =>
    unfold insertJoining
    split
    · next henough => exact ⟨rfl, Or.inl henough⟩
    · rcases hc.join_cases cell with ⟨comps', hjoin, hj, htracks⟩ | ⟨comps', hjoin, hj, htracks⟩
      · have hcell : cell ∉ b.basics := fun hm => hj (joined_of_mem hm)
        have hbasics : ((b.adjust cell fun _ => 0).insert cell).basics =
            Insert.insert cell b.basics := by
          rw [basics_insert, basics_adjust]
        rw [← hbasics] at htracks
        obtain ⟨hcount, hend⟩ := ih (added + 1) htracks
        rw [hbasics, Set.ncard_insert_of_notMem hcell] at hcount
        rw [hjoin]
        dsimp only
        refine ⟨by omega, hend.imp_right fun hall => ?_⟩
        rw [List.forall_mem_cons]
        refine ⟨joined_of_mem (subset_insertJoining htracks ?_), hall⟩
        rw [hbasics]
        exact Set.mem_insert cell b.basics
      · obtain ⟨hcount, hend⟩ := ih added htracks
        rw [hjoin]
        refine ⟨hcount, hend.imp_right fun hall => ?_⟩
        rw [List.forall_mem_cons]
        exact ⟨hj.mono (cellGraph_mono (subset_insertJoining htracks)), hall⟩

theorem mem_candidates {c : Cell m n} : c ∈ b.candidates net ↔ b.isBasic c = false := by
  simp [candidates]

/-- A completed forest is a tree over all nodes. -/
theorem complete_spans (net : Network α m n) (hm : 0 < m) (hn : 0 < n)
    (h : (cellGraph b.basics).IsAcyclic) : (b.complete net).2.Spans := by
  have hacyclic := complete_acyclic net h
  have hsubset : b.basics ⊆ (b.complete net).2.basics := subset_insertJoining b.components_tracks
  obtain ⟨hcount, henough | hall⟩ := insertJoining_exhausts (m + n - 1 - b.size) 0
    (b.candidates net) b.components_tracks
  · refine isTree_of_ncard hacyclic hm ?_
    have hsize := b.size_eq_ncard
    unfold complete
    omega
  · refine ⟨connected_of_joined hm hn fun c => ?_, hacyclic⟩
    cases hc : b.isBasic c with
    | true => exact joined_of_mem (hsubset hc)
    | false => exact hall c (mem_candidates.mpr hc)

end Completion

section Exchange

variable [Scalar α] {tolerance : α} {path : List (Cell m n)} {c : Cell m n}

/-- One cell enters and one leaves, so a tree stays a tree. -/
theorem Spans.shiftAlongLoop (h : b.Spans) (hc : b.isBasic c = false)
    (hpath : b.path? c = some path) : (b.shiftAlongLoop tolerance c path).2.Spans := by
  have hm : 0 < m := Nat.zero_lt_of_lt c.1.isLt
  refine isTree_of_ncard (shiftAlongLoop_acyclic h.isAcyclic hc hpath) hm ?_
  have hcard := ncard_add_one_of_isTree h
  obtain ⟨-, -, hp⟩ := path_route hpath
  cases hleaving : b.leavingCell tolerance path with
  | none =>
    simp only [Basis.shiftAlongLoop, hleaving]
    exact hcard.ge
  | some d =>
    have hd : d ∈ b.basics := hp d (mem_of_mem_donors (leavingCell_mem hleaving))
    rw [basics_shiftAlongLoop hc hp hleaving, Set.ncard_exchange (b.notMem_basics.mpr hc) hd]
    exact hcard.ge

end Exchange

end Basis

end LeastCost.Transport
