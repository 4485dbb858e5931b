import Mathlib.Order.Fin.Basic
import Mathlib.Order.MinMax
import LeastCost.Transport.Components

/-! # Classes of disjoint sets

Each node leads down to the root of its class, the least node of it. Finding a root shortens
ways and changes no class; uniting two nodes merges their classes and no others.
-/

namespace LeastCost.Transport.Components

variable {n : Nat} {c : Components n} {i j a b : Fin n}

/-- The node where the pointers from a node end. -/
def root (c : Components n) (i : Fin n) : Fin n :=
  if h : c.parent i = i then i
  else
    have : c.parent i < i := Fin.lt_iff_le_and_ne.2 ⟨c.parent_le i, h⟩
    c.root (c.parent i)
  termination_by i.val

theorem root_of_fixed (h : c.parent i = i) : c.root i = i := by
  rw [root, dif_pos h]

theorem root_parent (c : Components n) (i : Fin n) : c.root (c.parent i) = c.root i := by
  by_cases h : c.parent i = i
  · rw [h]
  · rw [root.eq_1 c i, dif_neg h]

theorem parent_lt (h : c.parent i ≠ i) : c.parent i < i := lt_of_le_of_ne (c.parent_le i) h

theorem parent_root (c : Components n) (i : Fin n) : c.parent (c.root i) = c.root i := by
  induction i using WellFoundedLT.induction with
  | ind i ih =>
    by_cases h : c.parent i = i
    · rw [root_of_fixed h, h]
    · rw [← root_parent]
      exact ih _ (parent_lt h)

@[simp] theorem root_root (c : Components n) (i : Fin n) : c.root (c.root i) = c.root i :=
  root_of_fixed (c.parent_root i)

@[simp] theorem root_discrete (i : Fin n) : (discrete n).root i = i :=
  root_of_fixed (by simp [discrete])

theorem root_redirect_inner (h : j < i) (hr : c.root j = c.root i)
    (k : Fin n) : (c.redirect i j h.le).root k = c.root k := by
  induction k using WellFoundedLT.induction with
  | ind k ih =>
    by_cases hk : i = k
    · subst hk
      rw [← root_parent, parent_redirect, if_pos rfl, ih j h, hr]
    · have hparent : (c.redirect i j h.le).parent k = c.parent k := by
        rw [parent_redirect, if_neg hk]
      by_cases hfix : c.parent k = k
      · rw [root_of_fixed hfix, root_of_fixed (hparent.trans hfix)]
      · rw [← root_parent, hparent, ih _ (parent_lt hfix), root_parent]

/-- A root pointed at another root takes its class along. -/
theorem root_redirect_root (hi : c.root i = i) (hj : c.root j = j) (h : j < i) (k : Fin n) :
    (c.redirect i j h.le).root k = if c.root k = i then j else c.root k := by
  induction k using WellFoundedLT.induction with
  | ind k ih =>
    by_cases hk : i = k
    · subst hk
      rw [← root_parent, parent_redirect, if_pos rfl, ih j h, hj, if_neg h.ne, hi, if_pos rfl]
    · have hparent : (c.redirect i j h.le).parent k = c.parent k := by
        rw [parent_redirect, if_neg hk]
      by_cases hfix : c.parent k = k
      · rw [root_of_fixed hfix, root_of_fixed (hparent.trans hfix), if_neg (Ne.symm hk)]
      · rw [← root_parent, hparent, ih _ (parent_lt hfix), root_parent]

theorem find_spec (c : Components n) (i : Fin n) :
    (c.find i).1 = c.root i ∧ ∀ k, (c.find i).2.root k = c.root k := by
  induction i using WellFoundedLT.induction generalizing c with
  | ind i ih =>
    rw [find]
    by_cases h : c.parent i = i
    · rw [dif_pos h]
      exact ⟨(root_of_fixed h).symm, fun _ => rfl⟩
    · rw [dif_neg h]
      have hlt : c.parent (c.parent i) < i := (c.parent_le _).trans_lt (parent_lt h)
      have hroot := root_redirect_inner hlt (by rw [root_parent, root_parent])
      obtain ⟨hfound, hkept⟩ := ih _ hlt (c.redirect i (c.parent (c.parent i)) hlt.le)
      refine ⟨?_, fun k => (hkept k).trans (hroot k)⟩
      rw [hfound, hroot, root_parent, root_parent]

theorem unite_fst (c : Components n) (a b : Fin n) :
    (c.unite a b).1 = true ↔ c.root a ≠ c.root b := by
  obtain ⟨ha, hka⟩ := c.find_spec a
  obtain ⟨hb, hkb⟩ := (c.find a).2.find_spec b
  rw [hka] at hb
  simp only [unite, ha, hb]
  split
  · next h => simp [h]
  · next h => split <;> simp [h]

theorem root_unite (c : Components n) (a b k : Fin n) :
    (c.unite a b).2.root k =
      if c.root k = c.root a ∨ c.root k = c.root b then min (c.root a) (c.root b)
      else c.root k := by
  obtain ⟨ha, hka⟩ := c.find_spec a
  obtain ⟨hb, hkb⟩ := (c.find a).2.find_spec b
  rw [hka] at hb
  have hroot : ∀ k, ((c.find a).2.find b).2.root k = c.root k :=
    fun k => (hkb k).trans (hka k)
  simp only [unite, ha, hb]
  split
  · next h =>
    rw [hroot, h, min_self]
    split
    · next hk => exact hk.elim id id
    · rfl
  · next h =>
    split
    · next hle =>
      have hlt : c.root a < c.root b := lt_of_le_of_ne hle h
      rw [root_redirect_root (by rw [hroot, root_root]) (by rw [hroot, root_root]) hlt, hroot,
        min_eq_left hle]
      by_cases hk : c.root k = c.root b
      · rw [if_pos hk, if_pos (Or.inr hk)]
      · rw [if_neg hk]
        split
        · next hk' => exact hk'.resolve_right hk
        · rfl
    · next hle =>
      have hlt : c.root b < c.root a := not_le.mp hle
      rw [root_redirect_root (by rw [hroot, root_root]) (by rw [hroot, root_root]) hlt, hroot,
        min_eq_right hlt.le]
      by_cases hk : c.root k = c.root a
      · rw [if_pos hk, if_pos (Or.inl hk)]
      · rw [if_neg hk]
        split
        · next hk' => exact hk'.resolve_left hk
        · rfl

/-- The classes of the two nodes become one. -/
theorem root_unite_eq_iff (c : Components n) (a b i j : Fin n) :
    (c.unite a b).2.root i = (c.unite a b).2.root j ↔
      c.root i = c.root j ∨ (c.root i = c.root a ∧ c.root b = c.root j) ∨
        (c.root i = c.root b ∧ c.root a = c.root j) := by
  rw [root_unite, root_unite]
  rcases min_choice (c.root a) (c.root b) with h | h <;> rw [h] <;> grind

end LeastCost.Transport.Components
