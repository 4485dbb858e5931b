import Mathlib.Data.List.Induction
import Mathlib.Logic.Relation
import Mathlib.Order.Bounds.Basic
import LeastCost.Proofs.Transport.Components

/-! # Classes after any calls

Whatever is found and united, the classes are those that the united pairs generate. The root of
a node is the least node of its class, and each round of a walk to it leaves the classes as they
are.
-/

namespace LeastCost.Transport.Components

open Relation

variable {n : Nat} {c : Components n} {i j : Fin n} {r : Fin n → Fin n → Prop}

/-- Pointers lead from the one node to the other when they are followed both ways. -/
def Linked (c : Components n) : Fin n → Fin n → Prop := EqvGen fun i j => c.parent i = j

theorem linked_root (c : Components n) (i : Fin n) : c.Linked i (c.root i) := by
  induction i using WellFoundedLT.induction with
  | ind i ih =>
    by_cases h : c.parent i = i
    · rw [root_of_fixed h]
      exact .refl i
    · rw [← root_parent]
      exact .trans _ _ _ (.rel _ _ rfl) (ih _ (parent_lt h))

theorem root_eq_of_eqvGen (hr : ∀ i j, r i j → c.root i = c.root j) (h : EqvGen r i j) :
    c.root i = c.root j := by
  induction h with
  | rel i j h => exact hr i j h
  | refl => rfl
  | symm _ _ _ ih => exact ih.symm
  | trans _ _ _ _ _ ih ih' => exact ih.trans ih'

theorem linked_iff : c.Linked i j ↔ c.root i = c.root j := by
  constructor
  · refine root_eq_of_eqvGen ?_
    rintro i _ rfl
    exact (c.root_parent i).symm
  · intro h
    have hj := c.linked_root j
    rw [← h] at hj
    exact .trans _ _ _ (c.linked_root i) (.symm _ _ hj)

theorem root_le (c : Components n) (i : Fin n) : c.root i ≤ i := by
  induction i using WellFoundedLT.induction with
  | ind i ih =>
    by_cases h : c.parent i = i
    · exact (root_of_fixed h).le
    · rw [← root_parent]
      exact (ih _ (parent_lt h)).trans (c.parent_le i)

theorem isLeast_root (c : Components n) (i : Fin n) :
    IsLeast {j | c.Linked i j} (c.root i) := by
  refine ⟨c.linked_root i, fun j hj => ?_⟩
  rw [linked_iff.mp hj]
  exact c.root_le j

section Walks

/-- One round of a walk to a root: the node is pointed two steps further, and the walk goes
there. -/
def halve (s : Components n × Fin n) : Components n × Fin n :=
  let target := s.1.parent (s.1.parent s.2)
  (s.1.redirect s.2 target ((s.1.parent_le _).trans (s.1.parent_le _)), target)

/-- The walk from a node ends after some rounds with what is found there. No round before has
changed a class. -/
structure Walks (c : Components n) (i : Fin n) (rounds : Nat) : Prop where
  goes : ∀ k < rounds, (halve^[k] (c, i)).1.parent (halve^[k] (c, i)).2 ≠ (halve^[k] (c, i)).2
  ends : (halve^[rounds] (c, i)).1.parent (halve^[rounds] (c, i)).2 = (halve^[rounds] (c, i)).2
  found : c.find i = (halve^[rounds] (c, i)).swap
  linked : ∀ k ≤ rounds, ∀ a b, (halve^[k] (c, i)).1.Linked a b ↔ c.Linked a b

theorem root_halve {s : Components n × Fin n} (h : s.1.parent s.2 ≠ s.2) (k : Fin n) :
    (halve s).1.root k = s.1.root k := by
  have hroot : s.1.root (s.1.parent (s.1.parent s.2)) = s.1.root s.2 := by
    rw [root_parent, root_parent]
  exact root_redirect_inner ((s.1.parent_le _).trans_lt (parent_lt h)) hroot k

theorem find_of_fixed (h : c.parent i = i) : c.find i = (i, c) := by
  rw [find, dif_pos h]

theorem find_halve (h : c.parent i ≠ i) : c.find i = (halve (c, i)).1.find (halve (c, i)).2 := by
  rw [find, dif_neg h]
  rfl

/-- Each round goes down, so the walk from a node has no more rounds than there are lesser
nodes. -/
theorem exists_walks (c : Components n) (i : Fin n) : ∃ rounds ≤ i.val, c.Walks i rounds := by
  induction i using WellFoundedLT.induction generalizing c with
  | ind i ih =>
    by_cases h : c.parent i = i
    · refine ⟨0, Nat.zero_le _, fun k hk => absurd hk k.not_lt_zero, h, find_of_fixed h, ?_⟩
      intro k hk a b
      obtain rfl := Nat.le_zero.mp hk
      rfl
    · have hlt : (halve (c, i)).2 < i := (c.parent_le _).trans_lt (parent_lt h)
      obtain ⟨rounds, hle, hwalks⟩ := ih _ hlt (halve (c, i)).1
      refine ⟨rounds + 1, hle.trans_lt hlt, ?_, hwalks.ends, (find_halve h).trans hwalks.found, ?_⟩
      · intro k hk
        cases k with
        | zero => exact h
        | succ k => exact hwalks.goes k (Nat.lt_of_succ_lt_succ hk)
      · intro k hk a b
        cases k with
        | zero => rfl
        | succ k =>
          refine (hwalks.linked k (Nat.le_of_succ_le_succ hk) a b).trans ?_
          rw [linked_iff, linked_iff, root_halve h, root_halve h]

end Walks

section Calls

inductive Call (n : Nat) where
  | find (node : Fin n)
  | unite (a b : Fin n)

def Call.run (c : Components n) : Call n → Components n
  | .find node => (c.find node).2
  | .unite a b => (c.unite a b).2

def afterCalls (calls : List (Call n)) : Components n := calls.foldl Call.run (discrete n)

def Connected (calls : List (Call n)) : Fin n → Fin n → Prop :=
  EqvGen fun a b => Call.unite a b ∈ calls

theorem afterCalls_concat (calls : List (Call n)) (call : Call n) :
    afterCalls (calls ++ [call]) = call.run (afterCalls calls) := by
  rw [afterCalls, List.foldl_append]
  rfl

variable {calls : List (Call n)}

theorem Connected.append (h : Connected calls i j) (more : List (Call n)) :
    Connected (calls ++ more) i j :=
  EqvGen.mono (fun _ _ => List.mem_append_left more) i j h

theorem connected_concat_find (calls : List (Call n)) (node : Fin n) :
    Connected (calls ++ [.find node]) = Connected calls := by
  simp [Connected]

/-- The pairs united by the calls are those with one root, and one call keeps it so. -/
theorem root_afterCalls_eq_iff (calls : List (Call n)) (i j : Fin n) :
    (afterCalls calls).root i = (afterCalls calls).root j ↔ Connected calls i j := by
  induction calls using List.reverseRecOn generalizing i j with
  | nil =>
    constructor
    · intro h
      rw [afterCalls, List.foldl_nil, root_discrete, root_discrete] at h
      exact h ▸ .refl i
    · exact root_eq_of_eqvGen (by simp)
  | append_singleton calls call ih =>
    rw [afterCalls_concat]
    cases call with
    | find node =>
      rw [Call.run, (find_spec _ node).2, (find_spec _ node).2, connected_concat_find, ih]
    | unite a b =>
      rw [Call.run]
      constructor
      · have hab : Connected (calls ++ [.unite a b]) a b := .rel _ _ (by simp)
        rw [root_unite_eq_iff, ih, ih, ih, ih, ih]
        rintro (h | ⟨hi, hj⟩ | ⟨hi, hj⟩)
        · exact h.append _
        · exact .trans _ _ _ (hi.append _) (.trans _ _ _ hab (hj.append _))
        · exact .trans _ _ _ (hi.append _) (.trans _ _ _ (.symm _ _ hab) (hj.append _))
      · refine root_eq_of_eqvGen fun i j h => (root_unite_eq_iff ..).mpr ?_
        rcases List.mem_append.mp h with h | h
        · exact Or.inl ((ih i j).mpr (.rel _ _ h))
        · obtain ⟨rfl, rfl⟩ : i = a ∧ j = b := by simpa using h
          exact Or.inr (Or.inl ⟨rfl, rfl⟩)

theorem linked_afterCalls_iff : (afterCalls calls).Linked i j ↔ Connected calls i j :=
  linked_iff.trans (root_afterCalls_eq_iff calls i j)

theorem isLeast_find_afterCalls (calls : List (Call n)) (i : Fin n) :
    IsLeast {j | Connected calls i j} ((afterCalls calls).find i).1 := by
  have hleast := (afterCalls calls).isLeast_root i
  simp only [linked_afterCalls_iff] at hleast
  rwa [(find_spec _ i).1]

theorem unite_afterCalls_fst (calls : List (Call n)) (a b : Fin n) :
    ((afterCalls calls).unite a b).1 = true ↔ ¬ Connected calls a b := by
  rw [unite_fst, ← root_afterCalls_eq_iff]

end Calls

end LeastCost.Transport.Components
