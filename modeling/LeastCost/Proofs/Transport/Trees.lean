import Mathlib.Data.Set.Card
import LeastCost.Proofs.Transport.Classes
import LeastCost.Proofs.Transport.Spanning

/-! # The trees of a forest

A cell between two trees makes one of them, so a forest has as many cells and trees together as
there are nodes. A basis of a forest is completed by one cell less than it has trees.
-/

namespace LeastCost.Transport

variable {m n : Nat} {cells : Set (Cell m n)} {c : Cell m n}

section Counting

open SimpleGraph (ConnectedComponent)

theorem card_components_empty :
    Nat.card (cellGraph (∅ : Set (Cell m n))).ConnectedComponent = m + n := by
  have hmk : Function.Bijective (cellGraph (∅ : Set (Cell m n))).connectedComponentMk := by
    refine ⟨fun x y h => ?_, Quot.mk_surjective⟩
    have hreach := ConnectedComponent.exact h
    rwa [cellGraph_empty, SimpleGraph.reachable_bot] at hreach
  rw [← Nat.card_eq_of_bijective _ hmk, Nat.card_sum, Nat.card_fin, Nat.card_fin]

def componentOf (cells : Set (Cell m n)) (x : Node m n) : (cellGraph cells).ConnectedComponent :=
  (cellGraph cells).connectedComponentMk x

def widen (c : Cell m n) (t : (cellGraph cells).ConnectedComponent) :
    (cellGraph (insert c cells)).ConnectedComponent :=
  t.map (.ofLE (cellGraph_mono (Set.subset_insert c cells)))

theorem widen_surjective (c : Cell m n) :
    Function.Surjective (widen c : (cellGraph cells).ConnectedComponent → _) :=
  ConnectedComponent.surjective_map_ofLE _

theorem widen_eq_iff {t u : (cellGraph cells).ConnectedComponent} :
    widen c t = widen c u ↔ t = u ∨
      (t = componentOf cells (.inl c.1) ∧ componentOf cells (.inr c.2) = u) ∨
      (t = componentOf cells (.inr c.2) ∧ componentOf cells (.inl c.1) = u) := by
  induction t using ConnectedComponent.ind with
  | h x =>
    induction u using ConnectedComponent.ind with
    | h y =>
      simp only [componentOf, ConnectedComponent.eq]
      exact ConnectedComponent.eq.trans reachable_insert_iff

theorem card_components_insert (h : ¬ Joined cells c) :
    Nat.card (cellGraph (insert c cells)).ConnectedComponent + 1 =
      Nat.card (cellGraph cells).ConnectedComponent := by
  have hne : componentOf cells (.inl c.1) ≠ componentOf cells (.inr c.2) :=
    fun he => h (ConnectedComponent.exact he)
  -- All components but that of the destination are left, and none of them is joined to another.
  have hinj : Set.InjOn (widen c) {componentOf cells (.inr c.2)}ᶜ := by
    intro t ht u hu htu
    rcases widen_eq_iff.mp htu with he | ⟨-, he⟩ | ⟨he, -⟩
    · exact he
    · exact absurd he.symm hu
    · exact absurd he ht
  have himage : widen c '' {componentOf cells (.inr c.2)}ᶜ = Set.univ := by
    refine Set.eq_univ_of_forall fun t => ?_
    obtain ⟨t, rfl⟩ := widen_surjective c t
    by_cases ht : t = componentOf cells (.inr c.2)
    · exact ⟨_, hne, widen_eq_iff.mpr (Or.inr (Or.inl ⟨rfl, ht.symm⟩))⟩
    · exact ⟨t, ht, rfl⟩
  rw [← Set.ncard_univ, ← himage, hinj.ncard_image, Nat.add_comm,
    ← Set.ncard_singleton (componentOf cells (.inr c.2)), Set.ncard_add_ncard_compl]

/-- Each cell of a forest leaves one component less. -/
theorem ncard_add_card_components (h : (cellGraph cells).IsAcyclic) :
    cells.ncard + Nat.card (cellGraph cells).ConnectedComponent = m + n := by
  induction cells, cells.toFinite using Set.Finite.induction_on with
  | empty => rw [Set.ncard_empty, Nat.zero_add, card_components_empty]
  | @insert c cells hc _ ih =>
    obtain ⟨hforest, hjoined⟩ := (isAcyclic_insert_iff hc).mp h
    rw [Set.ncard_insert_of_notMem hc, ← ih hforest, ← card_components_insert hjoined]
    omega

end Counting

namespace Basis

variable {α : Type} [Scalar α] {b : Basis α m n}

/-- A basis completed to a tree by a number of added cells, which carry nothing. -/
structure Completed (b : Basis α m n) (added : Nat) (full : Basis α m n) : Prop where
  subset : b.basics ⊆ full.basics
  flow_kept : ∀ c ∈ b.basics, full.flow c = b.flow c
  flow_added : ∀ c ∈ full.basics, c ∉ b.basics → full.flow c = 0
  flow_outside : ∀ c, c ∉ full.basics → full.flow c = b.flow c
  ncard_added : (full.basics \ b.basics).ncard = added
  card_components : added + 1 = Nat.card (cellGraph b.basics).ConnectedComponent
  isTree : (cellGraph full.basics).IsTree

theorem flow_complete (net : Network α m n) (b : Basis α m n) :
    b.basics ⊆ (b.complete net).2.basics ∧ ∀ c, (b.complete net).2.flow c =
      if (b.complete net).2.isBasic c ∧ ¬ b.isBasic c then 0 else b.flow c := by
  refine complete_induction (motive := fun full => b.basics ⊆ full.basics ∧ ∀ c,
    full.flow c = if full.isBasic c ∧ ¬ b.isBasic c then 0 else b.flow c) ?_ net ?_
  · rintro full cell ⟨hsubset, hflow⟩ hjoined
    have hcell : cell ∉ full.basics := fun hm => hjoined (joined_of_mem hm)
    have hb : ¬ b.isBasic cell = true := fun hm => hcell (hsubset hm)
    constructor
    · rw [basics_insert, basics_adjust]
      exact hsubset.trans (Set.subset_insert cell full.basics)
    · intro c
      rw [flow_insert, flow_adjust, isBasic_insert, isBasic_adjust]
      by_cases hc : cell = c
      · subst hc
        rw [if_pos rfl, if_pos rfl, if_pos ⟨rfl, hb⟩]
      · rw [if_neg hc, if_neg hc, hflow]
  · exact ⟨subset_rfl, fun c => (if_neg fun h => h.2 h.1).symm⟩

theorem complete_completed (net : Network α m n) (hm : 0 < m) (hn : 0 < n)
    (h : (cellGraph b.basics).IsAcyclic) :
    b.Completed (b.complete net).1 (b.complete net).2 := by
  obtain ⟨hsubset, hflow⟩ := flow_complete net b
  have hspans := complete_spans net hm hn h
  have hcount : (b.complete net).2.basics.ncard + 0 = b.basics.ncard + (b.complete net).1 :=
    (insertJoining_exhausts _ 0 _ b.components_tracks).1
  have hadded := Set.ncard_sdiff_add_ncard_of_subset hsubset
  have hnodes := ncard_add_one_of_isTree hspans
  have hforest := ncard_add_card_components h
  refine ⟨hsubset, ?_, ?_, ?_, by omega, by omega, hspans⟩
  · intro c hc
    rw [hflow, if_neg fun h => h.2 hc]
  · intro c hc hb
    rw [hflow, if_pos ⟨hc, hb⟩]
  · intro c hc
    rw [hflow, if_neg fun h => hc h.1]

end Basis

/-- After any calls the nodes are linked that united pairs connect. A walk to a root ends, at the
least node of the class, and changes no class on the way; two nodes are united when they were in
different classes. So a forest is completed to a tree by one cell less than it has components. -/
theorem classes_complete_forests :
    (∀ (size : Nat) (calls : List (Components.Call size)),
      let c := Components.afterCalls calls
      (∀ i j, c.Linked i j ↔ Components.Connected calls i j) ∧
      (∀ i, ∃ rounds ≤ i.val, c.Walks i rounds) ∧
      (∀ i, IsLeast {j | Components.Connected calls i j} (c.find i).1) ∧
      ∀ a b, (c.unite a b).1 = true ↔ ¬ Components.Connected calls a b) ∧
    ∀ (α : Type) [Scalar α] (m n : Nat) (net : Network α m n) (b : Basis α m n), 0 < m → 0 < n →
      (cellGraph b.basics).IsAcyclic → b.Completed (b.complete net).1 (b.complete net).2 :=
  ⟨fun _ calls => ⟨fun _ _ => Components.linked_afterCalls_iff,
      (Components.afterCalls calls).exists_walks, Components.isLeast_find_afterCalls calls,
      Components.unite_afterCalls_fst calls⟩,
    fun _ _ _ _ net _ hm hn h => Basis.complete_completed net hm hn h⟩

def chained : List (Components.Call 4) := [.unite 2 3, .find 3, .unite 1 3]

def crossed : Network Rat 2 2 :=
  { supply := .ofFn ![5, 5]
    demand := .ofFn ![5, 5]
    costs := .ofFn ![![1, 2], ![2, 4]] }

def diagonal : Basis Rat 2 2 :=
  { flows := .ofFn ![![5, 0], ![0, 5]]
    basic := .ofFn ![![true, false], ![false, true]] }

theorem diagonal_acyclic : (cellGraph diagonal.basics).IsAcyclic := by
  have hbasics : diagonal.basics = insert (1, 1) (insert (0, 0) ∅) := by
    ext c
    rw [Basis.mem_basics]
    revert c
    decide
  have hapart : ¬ Joined (insert (0, 0) (∅ : Set (Cell 2 2))) (1, 1) := by
    rw [Joined, reachable_insert_iff, cellGraph_empty]
    simp
  rw [hbasics, isAcyclic_insert_iff (by simp), isAcyclic_insert_iff (by simp), cellGraph_empty]
  exact ⟨⟨SimpleGraph.isAcyclic_bot, by simp [Joined]⟩, hapart⟩

theorem chained_complete_diagonal :
    let c := Components.afterCalls chained
    let full := diagonal.complete crossed
    (c.find 3).1 = 1 ∧ (∃ rounds ≤ 3, c.Walks 3 rounds) ∧ Components.Connected chained 3 1 ∧
      (c.unite 0 2).1 = true ∧ ¬ Components.Connected chained 0 2 ∧
      full.1 = 1 ∧ Nat.card (cellGraph diagonal.basics).ConnectedComponent = 2 ∧
      full.2.isBasic (0, 1) = true ∧ full.2.flow (0, 1) = 0 ∧ full.2.flow (1, 1) = 5 ∧
      (cellGraph full.2.basics).IsTree := by
  obtain ⟨hcalls, hcomplete⟩ := classes_complete_forests
  obtain ⟨-, hwalks, hleast, hunited⟩ := hcalls 4 chained
  obtain ⟨-, hkept, hadded, -, -, hcard, htree⟩ :=
    hcomplete Rat 2 2 crossed diagonal (by decide) (by decide) diagonal_acyclic
  have hroot : ((Components.afterCalls chained).find 3).1 = 1 := by decide +kernel
  have hjoins : ((Components.afterCalls chained).unite 0 2).1 = true := by decide +kernel
  have hmem := (hleast 3).1
  rw [hroot] at hmem
  have hcandidates : diagonal.candidates crossed = [(0, 1), (1, 0)] :=
    List.mergeSort_of_pairwise (by decide +kernel)
  have hone : (diagonal.complete crossed).1 = 1 := by
    rw [Basis.complete, hcandidates]
    decide +kernel
  have hbasic : (diagonal.complete crossed).2.isBasic (0, 1) = true := by
    rw [Basis.complete, hcandidates]
    decide +kernel
  rw [hone] at hcard
  exact ⟨hroot, hwalks 3, hmem, hjoins, (hunited 0 2).mp hjoins, hone, hcard.symm, hbasic,
    hadded _ hbasic (diagonal.notMem_basics.mpr rfl), hkept (1, 1) rfl, htree⟩

end LeastCost.Transport
