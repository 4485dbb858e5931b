import LeastCost.Proofs.Selection
import LeastCost.Proofs.Simplex.Pricing
import LeastCost.Simplex.Pivoting

/-! # Runs of pivots

What one pivot keeps, every tableau of a run has. A run that ends for want of a pivot ends with
a tableau whose reduced costs prove it optimal, or with a column that proves it unbounded.
-/

namespace LeastCost.Simplex

namespace Tableau

section Choices

variable {α : Type} [Scalar α] {t u : Tableau α} {tolerance : α} {i c : Nat}

theorem lt_of_enteringColumn (h : t.enteringColumn tolerance = some c) :
    c < t.columns ∧ entry t.costs c < -tolerance := by
  have := Selection.mem_of_firstLeast h
  simpa using this

theorem not_lt_of_enteringColumn_eq_none (h : t.enteringColumn tolerance = none) {j : Nat}
    (hj : j < t.columns) : ¬ entry t.costs j < -tolerance := by
  have := Selection.firstLeast_eq_none_iff.mp h
  simp only [List.filter_eq_nil_iff, List.mem_range, decide_eq_true_eq] at this
  exact this j hj

theorem lt_of_leavingRow (h : t.leavingRow tolerance c = some i) :
    i < t.rows.length ∧ ¬ entry (t.row i) c ≤ tolerance := by
  have := Selection.mem_of_choose h
  simpa using this

theorem le_of_leavingRow_eq_none (h : t.leavingRow tolerance c = none) {k : Nat}
    (hk : k < t.rows.length) : entry (t.row k) c ≤ tolerance := by
  have := Selection.choose_eq_none_iff.mp h
  simp only [List.filter_eq_nil_iff, List.mem_range, Bool.not_eq_true', decide_eq_false_iff_not,
    not_not] at this
  exact this k hk

theorem enteringColumn_of_next_eq_optimal (h : t.next tolerance = .optimal) :
    t.enteringColumn tolerance = none := by
  simp only [next] at h
  split at h
  · assumption
  · split at h <;> simp at h

theorem choices_of_next_eq_unbounded (h : t.next tolerance = .unbounded) :
    ∃ c, t.enteringColumn tolerance = some c ∧ t.leavingRow tolerance c = none := by
  simp only [next] at h
  split at h
  · simp at h
  · next c hc => split at h <;> simp_all

theorem choices_of_next_eq_pivot (h : t.next tolerance = .pivot i c) :
    t.enteringColumn tolerance = some c ∧ t.leavingRow tolerance c = some i := by
  simp only [next] at h
  split at h
  · simp at h
  · next hc => split at h <;> simp_all

/-- The tableaus that pivoting leads to. -/
inductive Reaches (tolerance : α) (t : Tableau α) : Tableau α → Prop where
  | refl : Reaches tolerance t t
  | pivot {u : Tableau α} {i c : Nat} : Reaches tolerance t u →
      u.next tolerance = .pivot i c → Reaches tolerance t (u.pivot i c)

theorem Reaches.head (h : t.next tolerance = .pivot i c)
    (hr : Reaches tolerance (t.pivot i c) u) : Reaches tolerance t u := by
  induction hr with
  | refl => exact .pivot .refl h
  | pivot _ hn ih => exact .pivot ih hn

end Choices

end Tableau

open Tableau

section Run

variable {α : Type} [Scalar α] (tolerance : α) (budget pivots : Nat) (t : Tableau α)

theorem reaches_run : t.Reaches tolerance (run tolerance budget pivots t).tableau := by
  induction budget generalizing pivots t with
  | zero => unfold run; split <;> exact .refl
  | succ budget ih =>
    unfold run
    split
    · exact .refl
    · exact .refl
    · next h => exact (ih _ _).head h

theorem tableau_run_zero : (run tolerance 0 pivots t).tableau = t := by
  unfold run
  split <;> rfl

theorem tableau_run_succ {i c : Nat}
    (h : (run tolerance budget pivots t).tableau.next tolerance = .pivot i c) :
    (run tolerance (budget + 1) pivots t).tableau =
      (run tolerance budget pivots t).tableau.pivot i c := by
  induction budget generalizing pivots t with
  | zero =>
    rw [tableau_run_zero] at h ⊢
    rw [run, h]
    exact tableau_run_zero _ _ _
  | succ budget ih =>
    unfold run at h ⊢
    split at h
    · simp_all
    · simp_all
    · exact ih _ _ h

/-- The tableaus that pivoting leads to are those that runs with some budget end with. -/
theorem reaches_iff_run {u : Tableau α} : t.Reaches tolerance u ↔
    ∃ budget, (run tolerance budget pivots t).tableau = u := by
  constructor
  · intro hr
    induction hr with
    | refl => exact ⟨0, tableau_run_zero _ _ _⟩
    | pivot _ hn ih =>
      obtain ⟨budget, rfl⟩ := ih
      exact ⟨budget + 1, tableau_run_succ _ _ _ _ hn⟩
  · rintro ⟨budget, rfl⟩
    exact reaches_run tolerance budget pivots t

theorem next_of_run_optimal (h : (run tolerance budget pivots t).verdict = .optimal) :
    (run tolerance budget pivots t).tableau.next tolerance = .optimal := by
  induction budget generalizing pivots t with
  | zero => unfold run at h ⊢; split at h <;> simp_all
  | succ budget ih =>
    unfold run at h ⊢
    split at h
    · simp_all
    · simp at h
    · simp_all

theorem next_of_run_unbounded (h : (run tolerance budget pivots t).verdict = .unbounded) :
    (run tolerance budget pivots t).tableau.next tolerance = .unbounded := by
  induction budget generalizing pivots t with
  | zero => unfold run at h ⊢; split at h <;> simp_all
  | succ budget ih =>
    unfold run at h ⊢
    split at h
    · simp at h
    · simp_all
    · simp_all

end Run

namespace Tableau

variable {t u : Tableau Rat} {tolerance : Rat} {i c : Nat} {costs : List Rat} {y : Nat → Rat}

theorem next_pivot_spec (ht : 0 ≤ tolerance) (h : t.next tolerance = .pivot i c) :
    c < t.columns ∧ 0 < entry (t.row i) c := by
  obtain ⟨hc, hi⟩ := choices_of_next_eq_pivot h
  exact ⟨(lt_of_enteringColumn hc).1, ht.trans_lt (not_le.mp (lt_of_leavingRow hi).2)⟩

theorem Reaches.columns_eq (hr : t.Reaches tolerance u) : u.columns = t.columns := by
  induction hr with
  | refl => rfl
  | pivot _ _ ih => exact ih

theorem Reaches.length_rows_eq (hr : t.Reaches tolerance u) : u.rows.length = t.rows.length := by
  induction hr with
  | refl => rfl
  | pivot _ _ ih => rw [length_rows_pivot, ih]

theorem Reaches.solved (hr : t.Reaches tolerance u) (ht : 0 ≤ tolerance) (h : t.Solved) :
    u.Solved := by
  induction hr with
  | refl => exact h
  | pivot _ hn ih =>
    obtain ⟨hc, ha⟩ := next_pivot_spec ht hn
    exact ih.pivot hc ha.ne'

theorem Reaches.solves_iff (hr : t.Reaches tolerance u) (ht : 0 ≤ tolerance) (h : t.Solved) :
    u.Solves y ↔ t.Solves y := by
  induction hr with
  | refl => rfl
  | pivot hr hn ih =>
    obtain ⟨hc, ha⟩ := next_pivot_spec ht hn
    exact (solves_pivot_iff (hr.solved ht h).toShaped hc ha.ne').trans ih

theorem Reaches.priced (hr : t.Reaches tolerance u) (ht : 0 ≤ tolerance) (h : t.Solved)
    (hp : t.Priced costs) : u.Priced costs := by
  induction hr with
  | refl => exact hp
  | pivot hr hn ih =>
    obtain ⟨hc, ha⟩ := next_pivot_spec ht hn
    exact ih.pivot (hr.solved ht h) hc ha.ne'

theorem Canonical.ratio_eq (h : t.Canonical) (hi : i < t.rows.length) :
    t.ratio c i = t.rhs (t.row i) / entry (t.row i) c := by
  simp [ratio, max_eq_left (h.rhs_row hi)]

/-- Without tolerance a tie is an equality, so rows are compared by ratio and then by basic
column. -/
theorem toLex_le_of_leavingRow (hi : t.leavingRow 0 c = some i) {k : Nat}
    (hk : k < t.rows.length) (hpos : 0 < entry (t.row k) c) :
    toLex (t.ratio c i, t.basic i) ≤ toLex (t.ratio c k, t.basic k) := by
  refine Selection.rank_le_of_choose (fun i => toLex (t.ratio c i, t.basic i)) (fun a b => ?_) hi
    (by simpa using ⟨hk, hpos⟩)
  simp [Prod.Lex.toLex_lt_toLex, sub_eq_zero]

theorem ratio_le_of_leavingRow (h : t.Canonical) (hi : t.leavingRow 0 c = some i) :
    ∀ k < t.rows.length, 0 < entry (t.row k) c →
      t.rhs (t.row i) / entry (t.row i) c ≤ t.rhs (t.row k) / entry (t.row k) c := by
  intro k hk hpos
  rw [← h.ratio_eq (lt_of_leavingRow hi).1, ← h.ratio_eq hk]
  exact Prod.Lex.monotone_fst _ _ (toLex_le_of_leavingRow hi hk hpos)

theorem Reaches.canonical (hr : t.Reaches 0 u) (h : t.Canonical) : u.Canonical := by
  induction hr with
  | refl => exact h
  | pivot _ hn ih =>
    obtain ⟨hc, ha⟩ := next_pivot_spec le_rfl hn
    exact ih.pivot hc ha (ratio_le_of_leavingRow ih (choices_of_next_eq_pivot hn).2)

end Tableau

variable {t : Tableau Rat} {costs : List Rat} {budget pivots : Nat} {y : Nat → Rat}

/-- A run that ends optimal ends with a solution that no non-negative solution undercuts. -/
theorem run_optimal (h : t.Canonical) (hp : t.Priced costs)
    (hv : (run 0 budget pivots t).verdict = .optimal) (hs : t.Solves y)
    (hy : ∀ j < t.columns, 0 ≤ y j) :
    (run 0 budget pivots t).tableau.objective ≤ eval t.columns costs y := by
  have hr := reaches_run 0 budget pivots t
  have hnone := enteringColumn_of_next_eq_optimal (next_of_run_optimal 0 budget pivots t hv)
  rw [← hr.columns_eq] at hy ⊢
  refine (hr.priced le_rfl h.toSolved hp).objective_le (fun j hj => ?_)
    ((hr.solves_iff le_rfl h.toSolved).mpr hs) hy
  simpa using not_lt_of_enteringColumn_eq_none hnone hj

/-- A run that ends unbounded proves that there are non-negative solutions below any bound. -/
theorem run_unbounded (h : t.Canonical) (hp : t.Priced costs)
    (hv : (run 0 budget pivots t).verdict = .unbounded) (bound : Rat) :
    ∃ y, t.Solves y ∧ (∀ j, 0 ≤ y j) ∧ eval t.columns costs y < bound := by
  have hr := reaches_run 0 budget pivots t
  obtain ⟨c, hc, hnone⟩ := choices_of_next_eq_unbounded (next_of_run_unbounded 0 budget pivots t hv)
  obtain ⟨hlt, hneg⟩ := lt_of_enteringColumn hc
  obtain ⟨y, hs, hy, hb⟩ := (hr.priced le_rfl h.toSolved hp).exists_eval_lt (hr.canonical h) hlt
    (by simpa using hneg) (fun i hi => le_of_leavingRow_eq_none hnone hi) bound
  exact ⟨y, (hr.solves_iff le_rfl h.toSolved).mp hs, hy, hr.columns_eq ▸ hb⟩

end LeastCost.Simplex
