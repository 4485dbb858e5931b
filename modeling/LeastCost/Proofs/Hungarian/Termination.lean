import Mathlib.Combinatorics.Enumerative.DoubleCounting
import LeastCost.Proofs.Hungarian.Shape
import LeastCost.Proofs.Problem.WellFormed
import LeastCost.Scalar.Double

/-! # Matching every row

Nothing is assumed of the scalars here: labels may overflow, and slacks may be no numbers. A
tree holds only columns that have a row, so the tree of one more row ends after as many passes
as there are rows by then. An assignment is then a permutation, or its numbers overflowed.
-/

namespace LeastCost.Hungarian

variable {α : Type} {n : Nat} {root row column : Fin n} {rowOf : Family (Option (Fin n)) n}
  {path : List (Fin n)} {t : Tree α n}

/-- The number of columns with a row. -/
def matchedCount (rowOf : Family (Option (Fin n)) n) : Nat :=
  (Finset.univ.filter fun j => (rowOf j).isSome = true).card

theorem alternates_of_matched (h : ∀ j ∈ path, ∃ i, rowOf j = some i) (column : Fin n) :
    Alternates (fun _ _ => True) root rowOf (column :: path) := by
  induction path generalizing column with
  | nil => exact ⟨⟨root, rfl, trivial⟩, trivial⟩
  | cons next path ih =>
    rw [List.forall_mem_cons] at h
    obtain ⟨⟨i, hi⟩, hpath⟩ := h
    exact ⟨⟨i, hi, trivial⟩, ih hpath next⟩

namespace Tree

theorem Shaped.taken_le (h : t.Shaped root rowOf) : t.taken ≤ matchedCount rowOf := by
  apply Finset.card_le_card
  intro j hj
  obtain ⟨i, hi⟩ := h.matched (Finset.mem_filter.mp hj).2
  exact Finset.mem_filter.mpr ⟨Finset.mem_univ j, Option.isSome_of_eq_some hi⟩

theorem Holds.length_le (h : t.Holds path) : path.length ≤ t.taken := by
  rw [← List.toFinset_card_of_nodup h.1]
  apply Finset.card_le_card
  intro j hj
  exact Finset.mem_filter.mpr ⟨Finset.mem_univ j, h.2 j (List.mem_toFinset.mp hj)⟩

end Tree

section Passes

variable [Scalar α] {costs : Grid α n n} {tolerance : α} {passes : Nat}

/-- A tree grows to a free column or until its numbers overflow, if there are more passes than
columns to take in. -/
theorem grow_ends (tolerance : α) (costs : Grid α n n) (h : t.Shaped root rowOf)
    (hpasses : matchedCount rowOf < t.taken + passes) :
    grow tolerance costs rowOf passes t = .error (.overflow .labelAdjustment) ∨
    ∃ t' column path, grow tolerance costs rowOf passes t = .ok (t', column :: path) ∧
      rowOf column = none ∧ (column :: path).Nodup ∧
      Alternates (fun _ _ => True) root rowOf (column :: path) ∧
      path.length ≤ matchedCount rowOf := by
  induction passes generalizing t with
  | zero =>
    -- The passes cannot run out: all columns taken so far are matched ones.
    have hle := h.taken_le
    omega
  | succ passes ih =>
    have hspread := h.spread costs
    simp only [grow]
    split
    · exact Or.inl rfl
    · next column o hn =>
      obtain ⟨hj, ho⟩ := Tree.nearest_outside hn
      have hholds := hspread.holds_offer hj ho
      have hshift := hspread.shift tolerance o.slack
      split
      · split
        · next hfree =>
          refine Or.inr ⟨_, column, o.path, rfl, hfree, hholds.cons hj, ?_, ?_⟩
          · exact alternates_of_matched (fun j hm => h.matched (hholds.2 j hm)) column
          · exact hholds.length_le.trans hspread.taken_le
        · next row hrow =>
          refine ih (hshift.enter hj hholds hrow) ?_
          have htaken := Tree.taken_enter (t := (t.spread costs).shift tolerance o.slack) hj
            o.path row
          have hsame : ((t.spread costs).shift tolerance o.slack).taken = t.taken := rfl
          omega
      · exact Or.inl rfl

/-- Passes that a tree does not need change nothing. -/
theorem grow_add (h : grow tolerance costs rowOf passes t ≠ .error .lostRow) (extra : Nat) :
    grow tolerance costs rowOf (passes + extra) t = grow tolerance costs rowOf passes t := by
  induction passes generalizing t with
  | zero => exact absurd rfl h
  | succ passes ih =>
    rw [Nat.succ_add]
    simp only [grow] at h ⊢
    split
    · rfl
    · next column o hn =>
      rw [hn] at h
      dsimp only at h
      split
      · next hfinite =>
        rw [if_pos hfinite] at h
        split
        · rfl
        · next row hrow =>
          rw [hrow] at h
          exact ih h
      · rfl

end Passes

namespace Matching

variable {s : Matching α n} {k : Nat}

/-- The rows before the `k`-th have a column each, and the others none. -/
structure Covers (k : Nat) (s : Matching α n) : Prop where
  isMatching : IsMatching (fun _ _ => True) s.rowOf
  matched_iff : ∀ i, Matched s.rowOf i ↔ i.val < k

theorem empty_covers (labels : Labels α n) :
    (Matching.mk labels (.replicate n none) 0).Covers 0 := by
  constructor
  · constructor
    · intro j j' i he
      simp at he
    · intro i j _
      trivial
  · simp [Matched]

theorem Covers.matchedCount_le (h : s.Covers k) : matchedCount s.rowOf ≤ k := by
  rw [← Finset.card_range k]
  apply Finset.card_le_card_of_forall_subsingleton
    (fun j i => ∃ i' : Fin n, s.rowOf j = some i' ∧ i'.val = i)
  · intro j hj
    obtain ⟨i, hi⟩ := Option.isSome_iff_exists.mp (Finset.mem_filter.mp hj).2
    exact ⟨i.val, Finset.mem_range.mpr ((h.matched_iff i).mp ⟨j, hi⟩), i, hi, rfl⟩
  · rintro i - j ⟨-, i', hi, rfl⟩ j' ⟨-, i'', hi', he⟩
    obtain rfl := Fin.ext he
    exact h.isMatching.injective hi hi'

variable [Scalar α] {costs : Grid α n n} {tolerance : α}

theorem Covers.grow_ends (h : s.Covers row.val) (tolerance : α) (costs : Grid α n n)
    {passes : Nat} (hpasses : row.val < passes) :
    grow tolerance costs s.rowOf passes (Tree.root s.labels row) =
      .error (.overflow .labelAdjustment) ∨
    ∃ t column path, grow tolerance costs s.rowOf passes (Tree.root s.labels row) =
        .ok (t, column :: path) ∧
      s.rowOf column = none ∧ (column :: path).Nodup ∧
      Alternates (fun _ _ => True) row s.rowOf (column :: path) ∧
      path.length ≤ matchedCount s.rowOf := by
  apply Hungarian.grow_ends tolerance costs (Tree.root_shaped s.labels row s.rowOf)
  rw [Tree.taken_root, zero_add]
  exact h.matchedCount_le.trans_lt hpasses

theorem Covers.grow_ne_lostRow (h : s.Covers row.val) (tolerance : α) (costs : Grid α n n) :
    grow tolerance costs s.rowOf (row.val + 1) (Tree.root s.labels row) ≠ .error .lostRow := by
  rcases h.grow_ends tolerance costs (Nat.lt_succ_self _) with he | ⟨t, column, path, he, -⟩
  · simp [he]
  · simp [he]

/-- Of the passes allowed no more are made than there are rows by then. -/
theorem Covers.grow_eq (h : s.Covers row.val) (tolerance : α) (costs : Grid α n n)
    {passes : Nat} (hpasses : row.val < passes) :
    grow tolerance costs s.rowOf passes (Tree.root s.labels row) =
      grow tolerance costs s.rowOf (row.val + 1) (Tree.root s.labels row) := by
  obtain ⟨extra, rfl⟩ := Nat.exists_eq_add_of_le (Nat.succ_le_of_lt hpasses)
  exact grow_add (h.grow_ne_lostRow tolerance costs) extra

theorem Covers.insertRow (h : s.Covers row.val) (tolerance : α) (costs : Grid α n n) :
    s.insertRow tolerance costs row = .error (.overflow .labelAdjustment) ∨
    ∃ s', s.insertRow tolerance costs row = .ok s' ∧ s'.Covers (row.val + 1) := by
  rcases h.grow_ends tolerance costs row.isLt with
    he | ⟨t, column, path, he, hfree, hnodup, halternates, -⟩
  · left
    rw [Matching.insertRow, he]
    rfl
  · right
    have hroot : ¬ Matched s.rowOf row := fun hm => lt_irrefl _ ((h.matched_iff row).mp hm)
    obtain ⟨hmatching, hmatched⟩ := rematch_free h.isMatching hroot hfree hnodup halternates
    have hinsert : s.insertRow tolerance costs row =
        .ok ⟨t.labels, rematch row (column :: path) s.rowOf, s.adjustments + t.adjustments⟩ := by
      rw [Matching.insertRow, he]
      rfl
    refine ⟨_, hinsert, hmatching, fun i => ?_⟩
    rw [hmatched i, h.matched_iff i, Nat.lt_succ_iff_lt_or_eq, ← Fin.ext_iff, or_comm]

def upTo (tolerance : α) (costs : Grid α n n) (k : Nat) :
    Except EngineFault (Matching α n) := do
  let labels ← Labels.reduce costs
  ((List.finRange n).take k).foldlM (Matching.insertRow tolerance costs)
    ⟨labels, .replicate n none, 0⟩

theorem upTo_size (tolerance : α) (costs : Grid α n n) :
    upTo tolerance costs n = complete tolerance costs := by
  rw [upTo, complete, List.take_of_length_le (List.length_finRange).le]

theorem upTo_succ (tolerance : α) (costs : Grid α n n) (row : Fin n) :
    upTo tolerance costs (row.val + 1) =
      upTo tolerance costs row.val >>= fun s => s.insertRow tolerance costs row := by
  have hrow : row.val < (List.finRange n).length := by simp
  rw [upTo, upTo, bind_assoc, List.take_succ_eq_append_getElem hrow, List.getElem_finRange]
  simp only [List.foldlM_append, List.foldlM_cons, List.foldlM_nil, bind_pure]
  rfl

/-- The first rows get a column each unless numbers overflow. -/
theorem upTo_covers (tolerance : α) (costs : Grid α n n) (hk : k ≤ n) :
    (∃ stage, upTo tolerance costs k = .error (.overflow stage)) ∨
    ∃ s, upTo tolerance costs k = .ok s ∧ s.Covers k := by
  induction k with
  | zero =>
    simp only [upTo, Labels.reduce]
    split
    · exact Or.inr ⟨_, rfl, empty_covers _⟩
    · exact Or.inl ⟨.matrixReduction, rfl⟩
  | succ k ih =>
    have hsucc := upTo_succ tolerance costs ⟨k, hk⟩
    dsimp only at hsucc
    rcases ih (Nat.le_of_succ_le hk) with ⟨stage, he⟩ | ⟨s, he, hcovers⟩
    · rw [he] at hsucc
      exact Or.inl ⟨stage, hsucc⟩
    · rw [he] at hsucc
      have hrow : s.Covers (Fin.mk k hk).val := hcovers
      rcases hrow.insertRow tolerance costs with hinsert | ⟨s', hinsert, hcovers'⟩
      · exact Or.inl ⟨.labelAdjustment, hsucc.trans hinsert⟩
      · exact Or.inr ⟨s', hsucc.trans hinsert, hcovers'⟩

theorem covers_of_upTo (hk : k ≤ n) (h : upTo tolerance costs k = .ok s) : s.Covers k := by
  rcases upTo_covers tolerance costs hk with ⟨stage, he⟩ | ⟨s', he, hcovers⟩
  · cases h.symm.trans he
  · obtain rfl := Except.ok.inj (h.symm.trans he)
    exact hcovers

end Matching

variable [Scalar α]

theorem assign_permutation_or_overflow (tolerance : α) (costs : Grid α n n) :
    (∃ r, assign tolerance costs = .ok r ∧ ∃ σ : Equiv.Perm (Fin n),
      r.pairs = (List.finRange n).map fun i => (i.val, (σ i).val)) ∨
    ∃ stage, assign tolerance costs = .error (.overflow stage) := by
  rcases Matching.upTo_covers tolerance costs le_rfl with
    ⟨stage, he⟩ | ⟨⟨labels, rowOf, adjustments⟩, he, hcovers⟩
  · right
    refine ⟨stage, ?_⟩
    rw [Matching.upTo_size] at he
    rw [assign, he]
    rfl
  · rw [Matching.upTo_size] at he
    obtain ⟨σ, -, hcells⟩ :=
      hcovers.isMatching.exists_perm fun i => (hcovers.matched_iff i).mpr i.isLt
    have hassign : assign tolerance costs =
        if Scalar.isFinite (Scalar.sum ((List.finRange n).map fun i => costs i (σ i))) then
          .ok { pairs := (List.finRange n).map fun i => (i.val, (σ i).val)
                totalCost := Scalar.sum ((List.finRange n).map fun i => costs i (σ i))
                statistics := { iterations := adjustments, rows := n, columns := n } }
        else .error (.overflow .costSummation) := by
      simp [assign, he, bind, Except.bind, hcells, pure, Except.pure, Function.comp_def, throw,
        throwThe, MonadExceptOf.throw]
    rw [hassign]
    split
    · exact Or.inl ⟨_, rfl, σ, rfl⟩
    · exact Or.inr ⟨_, rfl⟩

/-- A well-formed assignment problem gives a permutation or reports where its numbers
overflowed. Whatever the tolerance and the scalars are, the tree of each row ends after at most
one pass more than there are rows before it, with a path that repeats no column. -/
theorem solve_permutation_or_overflow {p : Assignment.Problem α} (h : p.violations = [])
    (s : Settings α) :
    ((∃ r, solve s p = .ok r ∧ ∃ σ : Equiv.Perm (Fin p.size),
        r.pairs = (List.finRange p.size).map fun i => (i.val, (σ i).val)) ∨
      ∃ stage, solve s p = .error (.engine (.overflow stage)) ∧
        (EngineFault.overflow stage).message ∈
          ["cost magnitudes overflow during matrix reduction; rescale the cost matrix",
            "cost magnitudes overflow during label adjustment; rescale the cost matrix",
            "cost magnitudes overflow during cost summation; rescale the cost matrix"]) ∧
    ∀ (row : Fin p.size) (before : Matching α p.size),
      Matching.upTo s.tolerance (Grid.ofLists p.costs) row.val = .ok before →
      let growth := fun passes => grow s.tolerance (Grid.ofLists p.costs) before.rowOf passes
        (Tree.root before.labels row)
      growth (row.val + 1) ≠ .error .lostRow ∧
      (∀ passes, row.val < passes → growth passes = growth (row.val + 1)) ∧
      ∀ t path, growth (row.val + 1) = .ok (t, path) →
        path.Nodup ∧ path.length ≤ row.val + 1 := by
  constructor
  · rcases assign_permutation_or_overflow s.tolerance
      (Grid.ofLists p.costs : Grid α p.size p.size) with ⟨r, hr, hpairs⟩ | ⟨stage, he⟩
    · exact Or.inl ⟨r, accept_eq_ok_iff.mpr ⟨h, hr⟩, hpairs⟩
    · refine Or.inr ⟨stage, ?_, ?_⟩
      · rw [solve, h, accept, he]
        rfl
      · cases stage with
        | matrixReduction => decide
        | labelAdjustment => decide
        | costSummation => decide
  · intro row before hbefore
    have hcovers := Matching.covers_of_upTo row.isLt.le hbefore
    refine ⟨hcovers.grow_ne_lostRow _ _, fun passes => hcovers.grow_eq _ _, fun t path hgrow => ?_⟩
    rcases hcovers.grow_ends s.tolerance (Grid.ofLists p.costs) (Nat.lt_succ_self _) with
      he | ⟨t', column, path', he, -, hnodup, -, hlength⟩
    · cases he.symm.trans hgrow
    · obtain ⟨rfl, rfl⟩ := Prod.mk.inj (Except.ok.inj (he.symm.trans hgrow))
      exact ⟨hnodup, Nat.succ_le_succ (hlength.trans hcovers.matchedCount_le)⟩

def extremes : Assignment.Problem Float :=
  { costs := [[1e308, -1e308], [-1e308, 1e308]] }

theorem extremes_overflow : extremes.violations = [] ∧
    ∃ stage, solve ⟨0 / 0, 0⟩ extremes = .error (.engine (.overflow stage)) := by
  have hvalid : extremes.violations = [] := by decide +kernel
  have hnone : (solve ⟨0 / 0, 0⟩ extremes).toOption = none := by decide +kernel
  rcases (solve_permutation_or_overflow hvalid ⟨0 / 0, 0⟩).1 with ⟨r, hr, -⟩ | ⟨stage, he, -⟩
  · rw [hr] at hnone
    cases hnone
  · exact ⟨hvalid, stage, he⟩

end LeastCost.Hungarian
