import LeastCost.Proofs.Simplex.Run

/-! # What pivoting keeps

Without tolerance every tableau of a run is canonical, has the solutions of the first one, and
prices them alike. The first column of most negative reduced cost enters, and the row of least
ratio leaves, with the smallest basic column among equals; so the objective never rises.
-/

namespace LeastCost.Simplex.Tableau

variable {t u : Tableau Rat} {i q : Nat} {costs : List Rat}

section Choices

structure Enters (t : Tableau Rat) (q : Nat) : Prop where
  lt_columns : q < t.columns
  neg : entry t.costs q < 0
  le : ∀ j < t.columns, entry t.costs q ≤ entry t.costs j
  lt_before : ∀ j < q, entry t.costs q < entry t.costs j

structure Leaves (t : Tableau Rat) (q i : Nat) : Prop where
  lt_length : i < t.rows.length
  pos : 0 < entry (t.row i) q
  least : ∀ k < t.rows.length, 0 < entry (t.row k) q →
    t.rhs (t.row i) / entry (t.row i) q < t.rhs (t.row k) / entry (t.row k) q ∨
      (t.rhs (t.row i) / entry (t.row i) q = t.rhs (t.row k) / entry (t.row k) q ∧
        t.basic i ≤ t.basic k)

theorem Enters.eq {q' : Nat} (h : t.Enters q) (h' : t.Enters q') : q = q' := by
  rcases Nat.lt_trichotomy q q' with hlt | rfl | hgt
  · exact absurd (h'.lt_before q hlt) (h.le q' h'.lt_columns).not_gt
  · rfl
  · exact absurd (h.lt_before q' hgt) (h'.le q h.lt_columns).not_gt

theorem Leaves.eq {i' : Nat} (hs : t.Solved) (h : t.Leaves q i) (h' : t.Leaves q i') : i = i' := by
  apply hs.basic_injective h.lt_length h'.lt_length
  rcases h.least i' h'.lt_length h'.pos with hlt | ⟨he, hle⟩
  · rcases h'.least i h.lt_length h.pos with hgt | ⟨he, -⟩
    · exact absurd hgt hlt.not_gt
    · exact absurd he hlt.ne'
  · rcases h'.least i h.lt_length h.pos with hgt | ⟨-, hge⟩
    · exact absurd he hgt.ne'
    · exact le_antisymm hle hge

theorem enters_of_enteringColumn (h : t.enteringColumn 0 = some q) : t.Enters q := by
  obtain ⟨hlt, hneg⟩ := lt_of_enteringColumn h
  rw [neg_zero] at hneg
  have hsorted : ((List.range t.columns).filter fun j => decide (entry t.costs j < -0)).Pairwise
      (· < ·) := List.pairwise_lt_range.filter _
  have hlex : ∀ j < t.columns, entry t.costs j < 0 →
      toLex (entry t.costs q, q) ≤ toLex (entry t.costs j, j) := fun j hj hcost =>
    Selection.toLex_le_of_firstLeast hsorted h (by simpa using ⟨hj, hcost⟩)
  refine ⟨hlt, hneg, fun j hj => ?_, fun j hj => ?_⟩
  · rcases lt_or_ge (entry t.costs j) 0 with hcost | hcost
    · exact Prod.Lex.monotone_fst _ _ (hlex j hj hcost)
    · exact hneg.le.trans hcost
  · rcases lt_or_ge (entry t.costs j) 0 with hcost | hcost
    · rcases Prod.Lex.toLex_le_toLex.mp (hlex j (hj.trans hlt) hcost) with hlt' | ⟨-, hle⟩
      · exact hlt'
      · exact absurd hj hle.not_gt
    · exact hneg.trans_le hcost

theorem enteringColumn_eq_some_iff : t.enteringColumn 0 = some q ↔ t.Enters q := by
  refine ⟨enters_of_enteringColumn, fun h => ?_⟩
  cases hc : t.enteringColumn 0 with
  | none =>
    have hnot := not_lt_of_enteringColumn_eq_none hc h.lt_columns
    rw [neg_zero] at hnot
    exact absurd h.neg hnot
  | some q' => rw [(enters_of_enteringColumn hc).eq h]

theorem leaves_of_leavingRow (hs : t.Canonical) (h : t.leavingRow 0 q = some i) :
    t.Leaves q i := by
  obtain ⟨hi, hpos⟩ := lt_of_leavingRow h
  refine ⟨hi, not_le.mp hpos, fun k hk hk' => ?_⟩
  rw [← hs.ratio_eq hi, ← hs.ratio_eq hk]
  exact Prod.Lex.toLex_le_toLex.mp (toLex_le_of_leavingRow h hk hk')

theorem leavingRow_eq_some_iff (hs : t.Canonical) : t.leavingRow 0 q = some i ↔ t.Leaves q i := by
  refine ⟨leaves_of_leavingRow hs, fun h => ?_⟩
  cases hr : t.leavingRow 0 q with
  | none => exact absurd h.pos (le_of_leavingRow_eq_none hr h.lt_length).not_gt
  | some i' => rw [(leaves_of_leavingRow hs hr).eq hs.toSolved h]

end Choices

theorem Priced.objective_pivot_le (hp : t.Priced costs) (h : t.Canonical)
    (hn : t.next 0 = .pivot i q) : (t.pivot i q).objective ≤ t.objective := by
  obtain ⟨hentering, hleaving⟩ := choices_of_next_eq_pivot hn
  have hq := enters_of_enteringColumn hentering
  have hi := leaves_of_leavingRow h hleaving
  rw [hp.objective_pivot h.toShaped hq.lt_columns hi.pos.ne', add_le_iff_nonpos_right]
  exact mul_nonpos_of_nonpos_of_nonneg hq.neg.le (div_nonneg (h.rhs_row hi.lt_length) hi.pos.le)

/-- A run from a canonical tableau, priced for any column costs, leads through canonical
tableaus. Their basic columns are distinct and have no reduced cost, their rows have the
solutions of the first one, and their cost rows say what each solution costs. The entering
column is the first of most negative reduced cost, the leaving row is the one of least ratio and
smallest basic column, and no pivot raises the objective. -/
theorem Canonical.kept_by_run (h : t.Canonical) (hc : costs.length = t.columns) (pivots : Nat) :
    (∀ u, (t.priceOut costs).Reaches 0 u ↔
      ∃ budget, (run 0 budget pivots (t.priceOut costs)).tableau = u) ∧
    ∀ u, (t.priceOut costs).Reaches 0 u →
      u.Canonical ∧ u.basis.Nodup ∧
      (∀ i < u.rows.length, entry u.costs (u.basic i) = 0) ∧
      (∀ y, u.Solves y ↔ t.Solves y) ∧
      (∀ y, t.Solves y → eval t.columns costs y = u.objective + eval t.columns u.costs y) ∧
      (∀ i q, u.next 0 = .pivot i q → (u.pivot i q).objective ≤ u.objective) ∧
      (∀ q i, u.leavingRow 0 q = some i ↔ u.Leaves q i) ∧
      ∀ q, u.enteringColumn 0 = some q ↔ u.Enters q := by
  refine ⟨fun u => reaches_iff_run 0 pivots _, fun u hr => ?_⟩
  have hstart := (h.priceOut costs).toSolved
  have hpriced := hr.priced le_rfl hstart (priced_priceOut h.toSolved hc)
  have hcanonical := hr.canonical (h.priceOut costs)
  have hsolves : ∀ y, u.Solves y ↔ t.Solves y := fun y => hr.solves_iff le_rfl hstart
  have hcolumns : u.columns = t.columns := hr.columns_eq
  refine ⟨hcanonical, hcanonical.basis_nodup, hpriced.costs_basic, hsolves, fun y hy => ?_,
    fun i q hn => hpriced.objective_pivot_le hcanonical hn,
    fun q i => leavingRow_eq_some_iff hcanonical, fun q => enteringColumn_eq_some_iff⟩
  rw [← hcolumns]
  exact hpriced.value y ((hsolves y).mpr hy)

def tied : Tableau Rat :=
  { rows := [[1, 0, 1, 0, 0, 4], [3, 2, 0, 0, 1, 12], [0, 2, 0, 1, 0, 12]]
    basis := [2, 4, 3]
    costs := []
    columns := 5 }

theorem tied_kept :
    tied.Canonical ∧ ∃ u, (tied.priceOut [-3, -5, 0, 0, 0]).Reaches 0 u ∧
      u.basis = [2, 0, 1] ∧ u.Canonical ∧ u.enteringColumn 0 = none ∧
      ∀ y, tied.Solves y → eval 5 [-3, -5, 0, 0, 0] y = -30 + eval 5 u.costs y := by
  have h : tied.Canonical :=
    { row_length := by decide
      basis_length := by decide
      basis_lt := by decide
      unit := by decide
      rhs_nonneg := by decide }
  have hc : ([-3, -5, 0, 0, 0] : List Rat).length = tied.columns := rfl
  obtain ⟨hreaches, hkept⟩ := h.kept_by_run hc 0
  have hr := (hreaches _).mpr ⟨9, rfl⟩
  obtain ⟨hcanonical, -, -, -, hvalue, -⟩ := hkept _ hr
  refine ⟨h, _, hr, by decide +kernel, hcanonical, by decide +kernel, fun y hy => ?_⟩
  have hobjective : (run 0 9 0 (tied.priceOut [-3, -5, 0, 0, 0])).tableau.objective = -30 := by
    decide +kernel
  rw [← hobjective]
  exact hvalue y hy

end LeastCost.Simplex.Tableau
