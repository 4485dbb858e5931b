import Mathlib.Algebra.BigOperators.Fin
import LeastCost.Proofs.Hungarian.Slack
import LeastCost.Proofs.Problem.Feasible
import LeastCost.Proofs.Problem.WellFormed

/-! # Least permutations

Over the rationals no tree fails to grow, every row is matched over tight cells, and the labels
stay feasible. The matching of all rows is then a permutation of least cost.
-/

namespace LeastCost.Hungarian

open scoped BigOperators

variable {n : Nat} {costs : Grid Rat n n} {root row : Fin n}
  {rowOf : Family (Option (Fin n)) n} {rows : Fin n → Prop} {s : Matching Rat n}

theorem grow_ok (tolerance : Rat)
    (hinj : ∀ {j j' i}, rowOf j = some i → rowOf j' = some i → j = j')
    (hroot : ¬ Matched rowOf root) {passes : Nat} {t : Tree Rat n}
    (h : t.Priced costs root rowOf t.Offered) (hpasses : t.taken + passes = n) :
    ∃ t' column path, grow tolerance costs rowOf passes t = .ok (t', column :: path) ∧
      rowOf column = none ∧ (column :: path).Nodup ∧ t'.labels.Feasible costs ∧
      (∀ i j, rowOf j = some i → t'.labels.Tight costs i j) ∧
      Alternates (t'.labels.Tight costs) root rowOf (column :: path) := by
  induction passes generalizing t with
  | zero =>
    have hlt := h.taken_lt hinj hroot
    omega
  | succ passes ih =>
    have hspread := h.spread
    obtain ⟨k, hk⟩ := Tree.exists_outside (t := t) (by omega)
    obtain ⟨j, o, hn⟩ := hspread.exists_nearest h.newest_mem hk
    obtain ⟨hj, ho⟩ := Tree.nearest_outside hn
    have hshift := h.shift_nearest tolerance hinj hroot hn
    simp only [grow, hn, Scalar.isFinite_rat, if_true]
    cases hr : rowOf j with
    | none =>
      exact ⟨_, j, o.path, rfl, hr, (hspread.holds_offer hj ho).cons hj, hshift.feasible,
        fun _ _ => hshift.tight, hspread.alternates_nearest tolerance hn⟩
    | some row =>
      refine ih (h.pass tolerance hinj hroot hn hr) ?_
      have htaken := Tree.taken_enter (t := (t.spread costs).shift tolerance o.slack) hj
        o.path row
      have hsame : ((t.spread costs).shift tolerance o.slack).taken = t.taken := rfl
      omega

/-- Feasible labels and a matching of these rows over tight cells. -/
structure Matching.Sound (costs : Grid Rat n n) (rows : Fin n → Prop) (s : Matching Rat n) :
    Prop where
  feasible : s.labels.Feasible costs
  isMatching : IsMatching (s.labels.Tight costs) s.rowOf
  matched_iff : ∀ i, Matched s.rowOf i ↔ rows i

theorem Matching.Sound.insertRow (h : s.Sound costs rows) (tolerance : Rat) (hr : ¬ rows row) :
    ∃ s', s.insertRow tolerance costs row = .ok s' ∧
      s'.Sound costs fun i => i = row ∨ rows i := by
  have hroot : ¬ Matched s.rowOf row := fun hm => hr ((h.matched_iff row).mp hm)
  have htaken : (Tree.root s.labels row).taken + n = n := by rw [Tree.taken_root, zero_add]
  obtain ⟨t, column, path, hgrow, hfree, hnodup, hfeasible, htight, halternates⟩ :=
    grow_ok tolerance h.isMatching.injective hroot
      (Tree.root_priced row h.feasible h.isMatching) htaken
  obtain ⟨hmatching, hmatched⟩ :=
    rematch_free (h.isMatching.mono htight) hroot hfree hnodup halternates
  have hinsert : s.insertRow tolerance costs row =
      .ok ⟨t.labels, rematch row (column :: path) s.rowOf, s.adjustments + t.adjustments⟩ := by
    rw [Matching.insertRow, hgrow]
    rfl
  refine ⟨_, hinsert, hfeasible, hmatching, ?_⟩
  intro i
  exact (hmatched i).trans (or_congr Iff.rfl (h.matched_iff i))

theorem Matching.Sound.foldlM_insertRow (h : s.Sound costs rows) (tolerance : Rat)
    {is : List (Fin n)} (hn : is.Nodup) (hd : ∀ i ∈ is, ¬ rows i) :
    ∃ s', is.foldlM (Matching.insertRow tolerance costs) s = .ok s' ∧
      s'.Sound costs fun i => i ∈ is ∨ rows i := by
  induction is generalizing s rows with
  | nil => exact ⟨s, rfl, by simpa using h⟩
  | cons row is ih =>
    rw [List.nodup_cons] at hn
    obtain ⟨s', hs', hsound⟩ := h.insertRow tolerance (hd row List.mem_cons_self)
    have hd' : ∀ i ∈ is, ¬ (i = row ∨ rows i) := by
      rintro i hi (rfl | hr)
      · exact hn.1 hi
      · exact hd i (List.mem_cons_of_mem _ hi) hr
    obtain ⟨s'', hs'', hsound'⟩ := ih hsound hn.2 hd'
    refine ⟨s'', by rw [List.foldlM_cons, hs']; exact hs'', ?_⟩
    refine ⟨hsound'.feasible, hsound'.isMatching, fun i => (hsound'.matched_iff i).trans ?_⟩
    rw [List.mem_cons, or_assoc, or_left_comm]

theorem Matching.start_sound (costs : Grid Rat n n) :
    (Matching.mk (Labels.reduction costs) (.replicate n none) 0).Sound costs fun _ => False := by
  refine ⟨Labels.reduction_feasible costs, ⟨?_, ?_⟩, ?_⟩
  · intro j j' i he
    simp at he
  · intro i j he
    simp at he
  · simp [Matched]

theorem Matching.complete_ok (tolerance : Rat) (costs : Grid Rat n n) :
    ∃ s, Matching.complete tolerance costs = .ok s ∧ s.Sound costs fun _ => True := by
  obtain ⟨s, hs, hsound⟩ := (Matching.start_sound costs).foldlM_insertRow tolerance
    (List.nodup_finRange n) fun _ _ => not_false
  refine ⟨s, by rw [Matching.complete, Labels.reduce_eq_ok]; exact hs, ?_⟩
  refine ⟨hsound.feasible, hsound.isMatching, fun i => (hsound.matched_iff i).trans ?_⟩
  simp

theorem assign_ok (tolerance : Rat) (costs : Grid Rat n n) :
    ∃ r, assign tolerance costs = .ok r ∧ ∃ σ : Equiv.Perm (Fin n),
      r.pairs = (List.finRange n).map (fun i => (i.val, (σ i).val)) ∧
      r.totalCost = ∑ i, costs i (σ i) ∧
      ∀ τ : Equiv.Perm (Fin n), ∑ i, costs i (σ i) ≤ ∑ i, costs i (τ i) := by
  obtain ⟨⟨labels, rowOf, adjustments⟩, hs, hsound⟩ := Matching.complete_ok tolerance costs
  obtain ⟨σ, hσ, hcells⟩ :=
    hsound.isMatching.exists_perm fun i => (hsound.matched_iff i).mpr trivial
  have htotal : Scalar.sum ((List.finRange n).map fun i => costs i (σ i)) =
      ∑ i, costs i (σ i) := by
    rw [Scalar.sum_rat, Fin.sum_univ_def]
  have hassign : assign tolerance costs = .ok
      { pairs := (List.finRange n).map fun i => (i.val, (σ i).val)
        totalCost := ∑ i, costs i (σ i)
        statistics := { iterations := adjustments, rows := n, columns := n } } := by
    rw [← htotal]
    simp [assign, hs, bind, Except.bind, hcells, pure, Except.pure, Function.comp_def]
  exact ⟨_, hassign, σ, rfl, rfl, hsound.feasible.sum_tight_le fun i =>
    hsound.isMatching.joined (hσ i)⟩

/-- A well-formed assignment problem always has a solution: the cells of a permutation, with the
sum of their costs, which no permutation undercuts. -/
theorem solve_least_permutation {p : Assignment.Problem Rat} (h : p.violations = [])
    (s : Settings Rat) :
    ∃ r, solve s p = .ok r ∧ (∃ σ : Equiv.Perm (Fin p.size),
        r.pairs = (List.finRange p.size).map fun i => (i.val, (σ i).val)) ∧
      r.totalCost = (r.pairs.map fun (i, j) => p.cost i j).sum ∧
      ∀ τ : Equiv.Perm (Fin p.size), r.totalCost ≤ ∑ i, p.cost i.val (τ i).val := by
  have hcost : ∀ i j : Fin p.size,
      (Grid.ofLists p.costs : Grid Rat p.size p.size) i j = p.cost i.val j.val :=
    fun i j => Grid.get_ofFn _ i j
  obtain ⟨r, hr, σ, hpairs, htotal, hleast⟩ :=
    assign_ok s.tolerance (Grid.ofLists p.costs : Grid Rat p.size p.size)
  refine ⟨r, accept_eq_ok_iff.mpr ⟨h, hr⟩, ⟨σ, hpairs⟩, ?_, ?_⟩
  · rw [htotal, hpairs, List.map_map, Fin.sum_univ_def]
    exact congrArg List.sum (List.map_congr_left fun i _ => hcost i (σ i))
  · intro τ
    rw [htotal]
    refine (hleast τ).trans_eq (Finset.sum_congr rfl fun i _ => hcost i (τ i))

def shifts : Assignment.Problem Rat :=
  { costs := [[4, -1, 3], [2, -1, 2], [4, 0, 5]] }

theorem shifts_least : ∃ r, solve ⟨1 / 1000, 0⟩ shifts = .ok r ∧
    r.totalCost = 5 ∧ ∀ τ : Equiv.Perm (Fin 3), 5 ≤ ∑ i, shifts.cost i.val (τ i).val := by
  have hvalid : shifts.violations = [] := by decide +kernel
  obtain ⟨r, hr, -, -, hleast⟩ := solve_least_permutation hvalid ⟨1 / 1000, 0⟩
  have he : solve ⟨1 / 1000, 0⟩ shifts = .ok
      { pairs := [(0, 2), (1, 0), (2, 1)], totalCost := 5
        statistics := ⟨1, 0, 3, 3⟩ } := by decide +kernel
  obtain rfl := Except.ok.inj (hr.symm.trans he)
  exact ⟨_, hr, rfl, hleast⟩

end LeastCost.Hungarian
