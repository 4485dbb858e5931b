import Mathlib.Algebra.Order.Field.Rat
import Mathlib.Combinatorics.SimpleGraph.Acyclic
import Mathlib.Logic.Equiv.Fin.Basic
import Mathlib.Tactic.Ring
import LeastCost.Transport.Basis

/-! # Forests of cells

A set of cells is a bipartite graph over the sources and the destinations. A cell outside joins
two trees or closes a cycle. The nodes of a forest can be priced such that every cell has a
given cost.
-/

namespace LeastCost.Transport

variable {m n : Nat}

abbrev Node (m n : Nat) := Fin m ⊕ Fin n

def Node.number : Node m n → Fin (m + n) := Sum.elim sourceNode destinationNode

theorem Node.number_bijective : Function.Bijective (Node.number : Node m n → Fin (m + n)) := by
  have he : (Node.number : Node m n → Fin (m + n)) = finSumFinEquiv := by
    funext x
    rcases x with i | j
    · exact (finSumFinEquiv_apply_left i).symm
    · exact (finSumFinEquiv_apply_right j).symm
  rw [he]
  exact finSumFinEquiv.bijective

theorem Node.number_injective : Function.Injective (Node.number : Node m n → Fin (m + n)) :=
  number_bijective.injective

theorem Node.exists_number (a : Fin (m + n)) : ∃ x : Node m n, x.number = a :=
  number_bijective.surjective a

@[simp] theorem Node.val_number_inl (i : Fin m) : (number (.inl i : Node m n)).val = i.val := rfl

@[simp] theorem Node.val_number_inr (j : Fin n) : (number (.inr j : Node m n)).val = m + j.val :=
  rfl

def Cell.edge (c : Cell m n) : Sym2 (Node m n) := s(.inl c.1, .inr c.2)

theorem Cell.edge_injective : Function.Injective (Cell.edge : Cell m n → Sym2 (Node m n)) := by
  rintro ⟨i, j⟩ ⟨i', j'⟩ h
  simpa [Cell.edge] using h

/-- The graph in which the two nodes of each cell are adjacent. -/
def cellGraph (cells : Set (Cell m n)) : SimpleGraph (Node m n) where
  Adj
    | .inl i, .inr j => (i, j) ∈ cells
    | .inr j, .inl i => (i, j) ∈ cells
    | _, _ => False
  symm := ⟨by rintro (i | j) (i' | j') h <;> exact h⟩
  loopless := ⟨by rintro (i | j) h <;> exact h⟩

variable {cells cells' : Set (Cell m n)} {c : Cell m n} {x y : Node m n}

@[simp] theorem cellGraph_adj {i : Fin m} {j : Fin n} :
    (cellGraph cells).Adj (.inl i) (.inr j) ↔ (i, j) ∈ cells := Iff.rfl

theorem cellGraph_adj_iff : (cellGraph cells).Adj x y ↔
    ∃ c ∈ cells, (x = .inl c.1 ∧ y = .inr c.2) ∨ (x = .inr c.2 ∧ y = .inl c.1) := by
  constructor
  · rcases x with i | j <;> rcases y with i' | j' <;> intro h
    · cases h
    · exact ⟨(i, j'), h, Or.inl ⟨rfl, rfl⟩⟩
    · exact ⟨(i', j), h, Or.inr ⟨rfl, rfl⟩⟩
    · cases h
  · rintro ⟨c, hc, ⟨rfl, rfl⟩ | ⟨rfl, rfl⟩⟩
    · exact hc
    · exact hc

theorem cellGraph_mono (h : cells ⊆ cells') : cellGraph cells ≤ cellGraph cells' := by
  intro x y hxy
  obtain ⟨c, hc, he⟩ := cellGraph_adj_iff.mp hxy
  exact cellGraph_adj_iff.mpr ⟨c, h hc, he⟩

@[simp] theorem cellGraph_empty : cellGraph (∅ : Set (Cell m n)) = ⊥ := by
  ext x y
  simp [cellGraph_adj_iff]

theorem cellGraph_insert :
    cellGraph (insert c cells) = cellGraph cells ⊔ SimpleGraph.edge (.inl c.1) (.inr c.2) := by
  ext x y
  simp only [SimpleGraph.sup_adj, SimpleGraph.edge_adj, cellGraph_adj_iff]
  constructor
  · rintro ⟨d, rfl | hd, he⟩
    · refine Or.inr ⟨he, ?_⟩
      rcases he with ⟨rfl, rfl⟩ | ⟨rfl, rfl⟩ <;> simp
    · exact Or.inl ⟨d, hd, he⟩
  · rintro (⟨d, hd, he⟩ | ⟨he, _⟩)
    · exact ⟨d, Set.mem_insert_of_mem c hd, he⟩
    · exact ⟨c, Set.mem_insert c cells, he⟩

def Joined (cells : Set (Cell m n)) (c : Cell m n) : Prop :=
  (cellGraph cells).Reachable (.inl c.1) (.inr c.2)

theorem joined_of_mem (h : c ∈ cells) : Joined cells c :=
  SimpleGraph.Adj.reachable (G := cellGraph cells) h

theorem isAcyclic_insert_iff (h : c ∉ cells) :
    (cellGraph (insert c cells)).IsAcyclic ↔
      (cellGraph cells).IsAcyclic ∧ ¬ Joined cells c := by
  rw [cellGraph_insert, SimpleGraph.isAcyclic_sup_fromEdgeSet_iff]
  refine and_congr Iff.rfl ?_
  simp only [reduceCtorEq, cellGraph_adj, Prod.mk.eta, h, or_self, imp_false]
  rfl

theorem reachable_sup_edge {V : Type*} {G : SimpleGraph V} {u v x y : V}
    (h : (G ⊔ SimpleGraph.edge u v).Reachable x y) :
    G.Reachable x y ∨ (G.Reachable x u ∧ G.Reachable v y) ∨
      (G.Reachable x v ∧ G.Reachable u y) := by
  rw [SimpleGraph.reachable_iff_reflTransGen] at h
  induction h with
  | refl => exact Or.inl (SimpleGraph.Reachable.refl x)
  | tail _ hadj ih =>
    rcases hadj with hadj | hadj
    · have hstep := hadj.reachable
      rcases ih with h | ⟨h, h'⟩ | ⟨h, h'⟩
      · exact Or.inl (h.trans hstep)
      · exact Or.inr (Or.inl ⟨h, h'.trans hstep⟩)
      · exact Or.inr (Or.inr ⟨h, h'.trans hstep⟩)
    · obtain ⟨⟨rfl, rfl⟩ | ⟨rfl, rfl⟩, _⟩ := (SimpleGraph.edge_adj ..).mp hadj
      · rcases ih with h | ⟨h, _⟩ | ⟨h, _⟩
        · exact Or.inr (Or.inl ⟨h, .refl _⟩)
        · exact Or.inr (Or.inl ⟨h, .refl _⟩)
        · exact Or.inl h
      · rcases ih with h | ⟨h, _⟩ | ⟨h, _⟩
        · exact Or.inr (Or.inr ⟨h, .refl _⟩)
        · exact Or.inl h
        · exact Or.inr (Or.inr ⟨h, .refl _⟩)

theorem reachable_insert_iff :
    (cellGraph (insert c cells)).Reachable x y ↔
      (cellGraph cells).Reachable x y ∨
      ((cellGraph cells).Reachable x (.inl c.1) ∧ (cellGraph cells).Reachable (.inr c.2) y) ∨
      ((cellGraph cells).Reachable x (.inr c.2) ∧ (cellGraph cells).Reachable (.inl c.1) y) := by
  constructor
  · rw [cellGraph_insert]
    exact reachable_sup_edge
  · have hle := cellGraph_mono (Set.subset_insert c cells)
    have hc : Joined (insert c cells) c := joined_of_mem (Set.mem_insert c cells)
    rintro (h | ⟨h, h'⟩ | ⟨h, h'⟩)
    · exact h.mono hle
    · exact (h.mono hle).trans (hc.trans (h'.mono hle))
    · exact (h.mono hle).trans (hc.symm.trans (h'.mono hle))

theorem reachable_insert_of_joined (h : Joined cells c) :
    (cellGraph (insert c cells)).Reachable x y ↔ (cellGraph cells).Reachable x y := by
  rw [reachable_insert_iff]
  constructor
  · rintro (hr | ⟨hr, hr'⟩ | ⟨hr, hr'⟩)
    · exact hr
    · exact hr.trans (h.trans hr')
    · exact hr.trans (h.symm.trans hr')
  · exact Or.inl

namespace Basis

variable {α : Type} (b : Basis α m n)

/-- The set of basic cells. -/
def basics : Set (Cell m n) := {c | b.isBasic c = true}

@[simp] theorem mem_basics : c ∈ b.basics ↔ b.isBasic c = true := Iff.rfl

theorem notMem_basics : c ∉ b.basics ↔ b.isBasic c = false := by
  rw [mem_basics, Bool.not_eq_true]

@[simp] theorem basics_adjust (c : Cell m n) (f : α → α) : (b.adjust c f).basics = b.basics := rfl

theorem basics_insert (c : Cell m n) : (b.insert c).basics = Insert.insert c b.basics := by
  ext d
  simp only [mem_basics, isBasic_insert, Set.mem_insert_iff]
  split
  · next h => simp [h]
  · next h => simp [Ne.symm h]

theorem basics_erase (c : Cell m n) : (b.erase c).basics = b.basics \ {c} := by
  ext d
  simp only [mem_basics, isBasic_erase, Set.mem_sdiff, Set.mem_singleton_iff]
  split
  · next h => simp [h]
  · next h => simp [Ne.symm h]

end Basis

section Prices

variable {costs : Cell m n → Rat} {price : Node m n → Rat}

/-- Every one of the cells costs as much as its nodes together. -/
def Prices (costs : Cell m n → Rat) (cells : Set (Cell m n)) (price : Node m n → Rat) : Prop :=
  ∀ c ∈ cells, price (.inl c.1) + price (.inr c.2) = costs c

open scoped Classical in
/-- The prices of a tree, raised at its sources and lowered at its destinations. -/
noncomputable def raised (tree : Set (Node m n)) (amount : Rat) (price : Node m n → Rat)
    (x : Node m n) : Rat :=
  if x ∈ tree then price x + Sum.elim (fun _ => amount) (fun _ => -amount) x else price x

theorem Prices.raise (h : Prices costs cells price) (tree : Set (Node m n))
    (ht : ∀ c ∈ cells, Sum.inl c.1 ∈ tree ↔ Sum.inr c.2 ∈ tree) (amount : Rat) :
    Prices costs cells (raised tree amount price) := by
  intro c hc
  rw [← h c hc]
  by_cases hl : Sum.inl c.1 ∈ tree
  · simp only [raised, if_pos hl, if_pos ((ht c hc).mp hl), Sum.elim_inl, Sum.elim_inr]
    ring
  · have hr : Sum.inr c.2 ∉ tree := fun hr => hl ((ht c hc).mpr hr)
    simp only [raised, if_neg hl, if_neg hr]

theorem exists_prices (costs : Cell m n → Rat) (cells : Finset (Cell m n))
    (h : (cellGraph (cells : Set (Cell m n))).IsAcyclic) :
    ∃ price, Prices costs cells price := by
  induction cells using Finset.induction_on with
  | empty => exact ⟨0, by simp [Prices]⟩
  | insert c cells hc ih =>
    rw [Finset.coe_insert] at h ⊢
    obtain ⟨hforest, hjoined⟩ := (isAcyclic_insert_iff (by simpa using hc)).mp h
    obtain ⟨price, hprice⟩ := ih hforest
    -- Only one node of the new cell is in this tree, so raising its prices can meet the cost.
    let tree : Set (Node m n) := {x | (cellGraph (cells : Set (Cell m n))).Reachable (.inl c.1) x}
    have htree : ∀ d ∈ (cells : Set (Cell m n)), Sum.inl d.1 ∈ tree ↔ Sum.inr d.2 ∈ tree :=
      fun d hd => ⟨fun hl => hl.trans (joined_of_mem hd),
        fun hr => hr.trans (joined_of_mem hd).symm⟩
    refine ⟨_, Set.forall_mem_insert.mpr ⟨?_, hprice.raise tree htree
      (costs c - price (.inl c.1) - price (.inr c.2))⟩⟩
    have hl : Sum.inl c.1 ∈ tree := SimpleGraph.Reachable.refl _
    have hr : Sum.inr c.2 ∉ tree := hjoined
    simp only [raised, if_pos hl, if_neg hr, Sum.elim_inl]
    ring

theorem Basis.exists_prices {α : Type} {b : Basis α m n} (costs : Cell m n → Rat)
    (h : (cellGraph b.basics).IsAcyclic) : ∃ price, Prices costs b.basics price := by
  have he : ((Finset.univ.filter fun c => b.isBasic c = true : Finset (Cell m n)) :
      Set (Cell m n)) = b.basics := by
    ext c
    simp
  rw [← he] at h ⊢
  exact Transport.exists_prices costs _ h

end Prices

end LeastCost.Transport
