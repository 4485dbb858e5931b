import Mathlib.Order.Interval.Finset.Nat
import LeastCost.Proofs.Simplex.Optimality

/-! # Phase one within a tolerance

With a tolerance phase one can fail: it takes in a column for what its entries add up to, but
lets a row leave only for an entry of its own. On a well-formed program nothing else fails, and
this takes a column whose entries are scattered over several artificial rows.
-/

namespace LeastCost.Simplex

open scoped BigOperators
open LinearProgram (Row Solution)

variable {p : LinearProgram Rat} {s : Settings Rat} {tolerance : Rat}

namespace Tableau

variable {t : Tableau Rat} {c : List Rat} {q real : Nat}

theorem Priced.entry_costs (hp : t.Priced c) (h : t.Solved) (hq : q < t.columns) :
    entry t.costs q = entry c q -
      ∑ i ∈ Finset.range t.rows.length, entry c (t.basic i) * entry (t.row i) q := by
  have hray : eval t.columns c (t.ray q 1) = _ := hp.eval_ray h hq
  rw [Tableau.eval_ray _ hq, hp.eval_solution h, eval_basicPoint h.toShaped] at hray
  linarith

def artificialRows (real : Nat) (t : Tableau Rat) : Finset Nat :=
  (Finset.range t.rows.length).filter fun i => real ≤ t.basic i

/-- No entry of the column is beyond the tolerance, but those of the artificial rows add up to
more. -/
structure Scattered (real : Nat) (tolerance : Rat) (t : Tableau Rat) (q : Nat) : Prop where
  lt_columns : q < t.columns
  entry_le : ∀ i < t.rows.length, entry (t.row i) q ≤ tolerance
  lt_sum : tolerance < ∑ i ∈ t.artificialRows real, entry (t.row i) q

theorem Scattered.lt_card_mul (h : t.Scattered real tolerance q) :
    tolerance < (t.artificialRows real).card * tolerance := by
  have hle : ∀ i ∈ t.artificialRows real, entry (t.row i) q ≤ tolerance := fun i hi =>
    h.entry_le i (Finset.mem_range.mp (Finset.mem_filter.mp hi).1)
  have hsum := Finset.sum_le_card_nsmul _ _ _ hle
  rw [nsmul_eq_mul] at hsum
  exact h.lt_sum.trans_le hsum

theorem Scattered.two_le_card (h : t.Scattered real tolerance q) (ht : 0 ≤ tolerance) :
    2 ≤ (t.artificialRows real).card := by
  by_contra hn
  have hcard : ((t.artificialRows real).card : Rat) ≤ 1 := by
    exact_mod_cast Nat.le_of_lt_succ (not_le.mp hn)
  have := mul_le_of_le_one_left ht hcard
  exact absurd h.lt_card_mul (not_lt.mpr this)

theorem Scattered.tolerance_pos (h : t.Scattered real tolerance q) (ht : 0 ≤ tolerance) :
    0 < tolerance := by
  refine lt_of_le_of_ne ht ?_
  rintro rfl
  simpa using h.lt_card_mul

theorem Solved.card_artificialRows_le (h : t.Solved) (real : Nat) :
    (t.artificialRows real).card ≤ t.columns - real := by
  rw [← Nat.card_Ico]
  apply Finset.card_le_card_of_injOn t.basic
  · intro i hi
    obtain ⟨hi, hb⟩ := Finset.mem_filter.mp hi
    exact Finset.mem_coe.mpr (Finset.mem_Ico.mpr ⟨hb, h.basic_lt (Finset.mem_range.mp hi)⟩)
  · intro i hi k hk he
    exact h.basic_injective (Finset.mem_range.mp (Finset.mem_filter.mp hi).1)
      (Finset.mem_range.mp (Finset.mem_filter.mp hk).1) he

end Tableau

section PhaseOne

def phaseOneStart (p : LinearProgram Rat) : Tableau Rat :=
  (standardize p).priceOut (phaseOneCosts (layout p))

theorem solved_phaseOneStart (h : p.WellFormed) : (phaseOneStart p).Solved :=
  ((canonical_standardize h).priceOut _).toSolved

theorem sum_phaseOneCosts {t : Tableau Rat} (h : t.Solved)
    (hcolumns : t.columns = (layout p).total) (f : Nat → Rat) :
    ∑ i ∈ Finset.range t.rows.length,
        entry (phaseOneCosts (layout p) : List Rat) (t.basic i) * f i =
      ∑ i ∈ t.artificialRows (layout p).real, f i := by
  rw [Tableau.artificialRows, Finset.sum_filter]
  refine Finset.sum_congr rfl fun i hi => ?_
  have hlt := hcolumns ▸ h.basic_lt (Finset.mem_range.mp hi)
  rw [entry_phaseOneCosts (layout_real_le p) hlt]
  split_ifs with hr hr'
  · omega
  · rw [zero_mul]
  · rw [one_mul]
  · omega

/-- Where phase one finds no row to leave, the column it would take in is scattered. -/
theorem scattered_of_next_unbounded {t : Tableau Rat} (h : t.Solved)
    (hp : t.Priced (phaseOneCosts (layout p))) (hcolumns : t.columns = (layout p).total)
    (hn : t.next tolerance = .unbounded) :
    ∃ q, t.Scattered (layout p).real tolerance q := by
  obtain ⟨q, hq, hnone⟩ := Tableau.choices_of_next_eq_unbounded hn
  obtain ⟨hlt, hneg⟩ := Tableau.lt_of_enteringColumn hq
  refine ⟨q, hlt, fun i hi => Tableau.le_of_leavingRow_eq_none hnone hi, ?_⟩
  have hcost : (0 : Rat) ≤ entry (phaseOneCosts (layout p)) q := by
    rw [entry_phaseOneCosts (layout_real_le p) (hcolumns ▸ hlt)]
    split
    · exact le_rfl
    · exact zero_le_one
  rw [hp.entry_costs h hlt, sum_phaseOneCosts h hcolumns] at hneg
  linarith

theorem scattered_of_phaseOne_unbounded (h : p.WellFormed) (ht : 0 ≤ s.tolerance)
    (hone : phaseOne s p = .unbounded) :
    ∃ t q, (phaseOneStart p).Reaches s.tolerance t ∧ t.Solved ∧
      t.Scattered (layout p).real s.tolerance q := by
  simp only [phaseOne] at hone
  split at hone
  · split at hone
    · cases hone
    · next hv =>
      have hstart := solved_phaseOneStart h
      have hr := reaches_run s.tolerance s.maxIterations 0 (phaseOneStart p)
      have hsolved := hr.solved ht hstart
      have hpriced := hr.priced ht hstart (priced_phaseOne h)
      obtain ⟨q, hq⟩ := scattered_of_next_unbounded hsolved hpriced hr.columns_eq
        (next_of_run_unbounded _ _ _ _ hv)
      exact ⟨_, q, hr, hsolved, hq⟩
    · split at hone <;> cases hone
  · cases hone

end PhaseOne

theorem optimize_eq_error {fault : EngineFault} (h : optimize s p = .error fault) :
    fault = .phaseOneUnbounded ∧ phaseOne s p = .unbounded := by
  simp only [optimize] at h
  cases hone : phaseOne s p with
  | unbounded =>
    rw [hone] at h
    exact ⟨(Except.error.inj h).symm, rfl⟩
  | iterationLimit pivots => simp [hone] at h
  | infeasible pivots => simp [hone] at h
  | feasible start pivots => simp [hone] at h

/-- A well-formed program has an outcome, unless phase one comes to a column whose entries are
all within the tolerance and yet add up to more over the artificial rows. That takes a positive
tolerance and two artificial rows. -/
theorem solve_ok_or_scattered (h : p.violations = []) (ht : 0 ≤ s.tolerance) :
    (∃ r, solve s p = .ok r) ∨
    solve s p = .error (.engine .phaseOneUnbounded) ∧ 0 < s.tolerance ∧
      ∃ t q, (phaseOneStart p).Reaches s.tolerance t ∧
        t.Scattered (layout p).real s.tolerance q ∧
        2 ≤ (t.artificialRows (layout p).real).card ∧
        (t.artificialRows (layout p).real).card ≤ (layout p).total - (layout p).real := by
  cases ho : optimize s p with
  | ok r => exact Or.inl ⟨r, accept_eq_ok_iff.mpr ⟨h, ho⟩⟩
  | error fault =>
    right
    obtain ⟨rfl, hone⟩ := optimize_eq_error ho
    obtain ⟨t, q, hr, hsolved, hq⟩ :=
      scattered_of_phaseOne_unbounded (LinearProgram.violations_eq_nil_iff.mp h) ht hone
    have hcard := hsolved.card_artificialRows_le (layout p).real
    rw [hr.columns_eq] at hcard
    refine ⟨?_, hq.tolerance_pos ht, t, q, hr, hq, hq.two_le_card ht, hcard⟩
    rw [solve, h, accept, ho]
    rfl

def thin : LinearProgram Rat :=
  { direction := .minimize
    objective := [1]
    constraints := [[1 / 2 ^ 30], [1 / 2 ^ 30]]
    signs := [.equal, .equal]
    rhs := [1, 1] }

/-- A feasible program without an outcome. -/
theorem thin_fails : thin.violations = [] ∧ thin.Feasible [2 ^ 30] ∧
    solve ⟨1 / 10 ^ 9, 5000⟩ thin = .error (.engine .phaseOneUnbounded) := by
  decide +kernel

theorem thin_scattered : thin.violations = [] ∧ ∃ t q,
    (phaseOneStart thin).Reaches (1 / 10 ^ 9) t ∧
      t.Scattered (layout thin).real (1 / 10 ^ 9) q := by
  have hvalid : thin.violations = [] := by decide +kernel
  have he : solve ⟨1 / 10 ^ 9, 5000⟩ thin = .error (.engine .phaseOneUnbounded) := by
    decide +kernel
  rcases solve_ok_or_scattered (s := ⟨1 / 10 ^ 9, 5000⟩) hvalid (by decide +kernel) with
    ⟨r, hr⟩ | ⟨-, -, t, q, hr, hq, -⟩
  · cases hr.symm.trans he
  · exact ⟨hvalid, t, q, hr, hq⟩

end LeastCost.Simplex
