import LeastCost.Proofs.Transport.Components
import LeastCost.Proofs.Transport.Forest
import LeastCost.Transport.Completion

/-! # Completed bases

The classes that are kept while a basis is completed are the trees of the basis. A candidate is
admitted only when it joins two of them, so a forest stays a forest.
-/

namespace LeastCost.Transport

variable {α : Type} {m n : Nat} {c : Components (m + n)} {cells : Set (Cell m n)}
  {cell : Cell m n}

namespace Components

/-- Two nodes are in one class exactly when the cells connect them. -/
def Tracks (c : Components (m + n)) (cells : Set (Cell m n)) : Prop :=
  ∀ x y : Node m n, c.root x.number = c.root y.number ↔ (cellGraph cells).Reachable x y

theorem discrete_tracks : (discrete (m + n)).Tracks (∅ : Set (Cell m n)) := by
  intro x y
  rw [cellGraph_empty, SimpleGraph.reachable_bot, root_discrete, root_discrete]
  exact Node.number_injective.eq_iff

theorem Tracks.join (h : c.Tracks cells) (cell : Cell m n) :
    (c.join cell).2.Tracks (insert cell cells) := by
  intro x y
  have hx := h x
  have hr := h (.inr cell.2)
  have hl := h (.inl cell.1)
  rw [Components.join, root_unite_eq_iff, reachable_insert_iff, ← hx, ← hx, ← hx, ← hr, ← hl]
  rfl

theorem Tracks.join_fst (h : c.Tracks cells) (cell : Cell m n) :
    (c.join cell).1 = true ↔ ¬ Joined cells cell := by
  rw [Components.join, unite_fst]
  exact not_congr (h (.inl cell.1) (.inr cell.2))

theorem Tracks.of_insert (h : c.Tracks (insert cell cells)) (hj : Joined cells cell) :
    c.Tracks cells :=
  fun x y => (h x y).trans (reachable_insert_of_joined hj)

theorem Tracks.join_cases (h : c.Tracks cells) (cell : Cell m n) :
    (∃ c', c.join cell = (true, c') ∧ ¬ Joined cells cell ∧ c'.Tracks (insert cell cells)) ∨
    (∃ c', c.join cell = (false, c') ∧ Joined cells cell ∧ c'.Tracks cells) := by
  have hfst := h.join_fst cell
  have hsnd := h.join cell
  obtain ⟨joins, c', he⟩ : ∃ joins c', c.join cell = (joins, c') := ⟨_, _, rfl⟩
  rw [he] at hfst hsnd
  cases joins with
  | true => exact Or.inl ⟨c', he, hfst.mp rfl, hsnd⟩
  | false =>
    have hj : Joined cells cell := not_not.mp fun hj => by cases hfst.mpr hj
    exact Or.inr ⟨c', he, hj, hsnd.of_insert hj⟩

theorem Tracks.foldl_join (h : c.Tracks cells) (added : List (Cell m n)) :
    (added.foldl (fun c cell => (c.join cell).2) c).Tracks ({d | d ∈ added} ∪ cells) := by
  induction added generalizing c cells with
  | nil => simpa using h
  | cons cell added ih =>
    have he : {d | d ∈ cell :: added} ∪ cells = {d | d ∈ added} ∪ insert cell cells := by
      ext d
      simp only [List.mem_cons, Set.mem_union, Set.mem_ofPred_eq, Set.mem_insert_iff]
      rw [or_assoc, or_left_comm]
    rw [he]
    exact ih (h.join cell)

end Components

namespace Basis

variable {b : Basis α m n}

theorem components_tracks (b : Basis α m n) : b.components.Tracks b.basics := by
  have he : b.basics = {d | d ∈ b.cells} ∪ ∅ := by
    ext d
    simp
  rw [he]
  exact Components.discrete_tracks.foldl_join b.cells

variable [Scalar α]

theorem insertJoining_induction {motive : Basis α m n → Prop}
    (join : ∀ b cell, motive b → ¬ Joined b.basics cell →
      motive ((b.adjust cell fun _ => 0).insert cell))
    {required added : Nat} {candidates : List (Cell m n)} (hc : c.Tracks b.basics)
    (h : motive b) : motive (insertJoining required candidates c added b).2 := by
  induction candidates generalizing c added b with
  | nil => exact h
  | cons cell candidates ih =>
    unfold insertJoining
    split
    · exact h
    · rcases hc.join_cases cell with ⟨c', hjoin, hj, htracks⟩ | ⟨c', hjoin, -, htracks⟩
      · rw [hjoin]
        refine ih ?_ (join b cell h hj)
        rwa [basics_insert, basics_adjust]
      · rw [hjoin]
        exact ih htracks h

theorem complete_induction {motive : Basis α m n → Prop}
    (join : ∀ b cell, motive b → ¬ Joined b.basics cell →
      motive ((b.adjust cell fun _ => 0).insert cell))
    (net : Network α m n) (h : motive b) : motive (b.complete net).2 :=
  insertJoining_induction join b.components_tracks h

theorem complete_of_size_ge (net : Network α m n) (h : m + n - 1 ≤ b.size) :
    b.complete net = (0, b) := by
  rw [complete, Nat.sub_eq_zero_of_le h]
  cases b.candidates net with
  | nil => rfl
  | cons cell candidates => rw [insertJoining, if_pos (Nat.le_refl 0)]

theorem complete_acyclic (net : Network α m n) (h : (cellGraph b.basics).IsAcyclic) :
    (cellGraph (b.complete net).2.basics).IsAcyclic := by
  refine complete_induction (motive := fun b => (cellGraph b.basics).IsAcyclic) ?_ net h
  intro b cell hb hjoined
  rw [basics_insert, basics_adjust]
  exact (isAcyclic_insert_iff fun hm => hjoined (joined_of_mem hm)).mpr ⟨hb, hjoined⟩

end Basis

end LeastCost.Transport
