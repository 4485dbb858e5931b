import LeastCost.Proofs.Problem.Feasible
import LeastCost.Proofs.Problem.WellFormed
import LeastCost.Proofs.Simplex.Lines

/-! # Standard form

The standard form of a well-formed program is canonical. Its non-negative solutions without
artificial parts are the feasible points of the program, each with the one choice of slacks
that makes up for the distance from its bounds.
-/

namespace LeastCost.Simplex

open LinearProgram (Row)

variable {l : Layout} {s a j : Nat} {r : Row Rat} {rows : List (Row Rat)} {x : List Rat}
  {y : Nat → Rat}

theorem dot_eq_eval {n : Nat} (row x : List Rat) (h : row.length ≤ n) :
    Scalar.dot row x = eval n row (entry x) := by
  rw [Scalar.dot_rat]
  induction row generalizing x n with
  | nil => simp [eval, entry_of_le]
  | cons v row ih =>
    obtain ⟨n, rfl⟩ : ∃ k, n = k + 1 := ⟨n - 1, by simp at h; omega⟩
    rw [eval, Finset.sum_range_succ']
    cases x with
    | nil => simp [entry_of_le]
    | cons w x =>
      have := ih (n := n) x (by simpa using h)
      simp only [List.zipWith_cons_cons, List.sum_cons, entry_cons_zero, entry_cons_succ, this,
        eval]
      ring

section Oriented

theorem oriented_bound_nonneg (r : Row Rat) : 0 ≤ (oriented r).bound := by
  unfold oriented
  split
  · next h => exact (neg_pos.mpr h).le
  · next h => exact not_lt.mp h

@[simp] theorem length_coefficients_oriented {α : Type} [Scalar α] (r : Row α) :
    (oriented r).coefficients.length = r.coefficients.length := by
  unfold oriented
  split <;> simp

theorem dot_neg (row x : List Rat) : Scalar.dot (row.map (- ·)) x = -Scalar.dot row x := by
  rw [dot_eq_eval (n := row.length) _ _ (by simp), dot_eq_eval (n := row.length) _ _ le_rfl,
    eval, eval, ← Finset.sum_neg_distrib]
  exact Finset.sum_congr rfl fun j _ => by rw [entry_map (f := (- ·)) neg_zero]; ring

theorem holds_oriented_iff (r : Row Rat) : (oriented r).Holds x ↔ r.Holds x := by
  unfold oriented
  split
  · obtain ⟨coefficients, sign, bound⟩ := r
    cases sign <;> simp [Row.Holds, Sign.flipped, dot_neg, neg_eq_iff_eq_neg]
  · rfl

def slackOf (x : List Rat) (r : Row Rat) : Rat := |r.bound - Scalar.dot r.coefficients x|

theorem slackOf_oriented (r : Row Rat) : slackOf x (oriented r) = slackOf x r := by
  unfold oriented
  split
  · rw [slackOf, dot_neg, slackOf, ← abs_neg]
    ring_nf
  · rfl

/-- The distances of the inequalities from their bounds, in row order. -/
def slacks (x : List Rat) (rows : List (Row Rat)) : List Rat :=
  (rows.filter (·.sign.hasSlack)).map (slackOf x)

theorem slacks_nonneg {x : List Rat} {rows : List (Row Rat)} : ∀ v ∈ slacks x rows, 0 ≤ v := by
  intro v hv
  obtain ⟨r, -, rfl⟩ := List.mem_map.mp hv
  exact abs_nonneg _

theorem hasSlack_oriented (r : Row Rat) : (oriented r).sign.hasSlack = r.sign.hasSlack := by
  unfold oriented
  split
  · obtain ⟨_, sign, _⟩ := r
    cases sign <;> rfl
  · rfl

theorem slacks_map_oriented (x : List Rat) (rows : List (Row Rat)) :
    slacks x (rows.map oriented) = slacks x rows := by
  induction rows with
  | nil => rfl
  | cons r rows ih =>
    simp only [slacks, List.map_cons, List.filter_cons, hasSlack_oriented] at ih ⊢
    split <;> simp_all [slackOf_oriented]

end Oriented

section Equations

theorem line_holds_iff (h : Room l s a (r :: rows)) (hx : ∀ j < l.structural, y j = entry x j)
    (hs : 0 ≤ y s) (ha : r.sign.needsArtificial = true → y a = 0) :
    eval l.total (standardLine l s a r).2 y = entry (standardLine l s a r).2 l.total ↔
      r.Holds x ∧ (r.sign.hasSlack = true → y s = slackOf x r) := by
  have hdot : eval l.structural r.coefficients y = Scalar.dot r.coefficients x := by
    rw [dot_eq_eval _ _ (h.coefficients_length r List.mem_cons_self).le]
    exact eval_congr fun j hj => by rw [hx j hj]
  rw [eval_standardLine h, entry_standardLine_bound h, hdot]
  obtain ⟨coefficients, sign, bound⟩ := r
  cases sign with
  | lessEqual =>
    simp only [slackEntry, Sign.needsArtificial, Sign.hasSlack, Row.Holds, slackOf]
    constructor
    · intro he
      have : y s = bound - Scalar.dot coefficients x := by simp at he; linarith
      exact ⟨by linarith, fun _ => by rw [← this, abs_of_nonneg hs]⟩
    · rintro ⟨hle, he⟩
      rw [he rfl, abs_of_nonneg (by linarith)]
      simp
  | greaterEqual =>
    simp only [slackEntry, Sign.needsArtificial, Sign.hasSlack, Row.Holds, slackOf]
    constructor
    · intro he
      have : -y s = bound - Scalar.dot coefficients x := by simp [ha rfl] at he; linarith
      exact ⟨by linarith, fun _ => by rw [← this, abs_neg, abs_of_nonneg hs]⟩
    · rintro ⟨hle, he⟩
      rw [he rfl, abs_of_nonpos (by linarith), ha rfl]
      simp
  | equal =>
    simp [slackEntry, Sign.needsArtificial, Sign.hasSlack, Row.Holds, ha rfl]

/-- Without artificial parts the lines hold at a point exactly when the constraints hold at its
decision variables and its slacks make up for their distances from their bounds. -/
theorem lines_hold_iff (h : Room l s a rows) (hx : ∀ j < l.structural, y j = entry x j)
    (hy : ∀ j, 0 ≤ y j) (hart : ∀ j, l.real ≤ j → y j = 0) :
    (∀ line ∈ standardRows l s a rows, eval l.total line.2 y = entry line.2 l.total) ↔
      (∀ r ∈ rows, r.Holds x) ∧
        ∀ i < (slacks x rows).length, y (s + i) = entry (slacks x rows) i := by
  induction rows generalizing s a with
  | nil => simp [standardRows, slacks]
  | cons r rows ih =>
    have hline := line_holds_iff h hx (hy s) fun _ => hart a h.real_le
    rw [standardRows_cons]
    simp only [List.forall_mem_cons, hline, ih h.tail]
    by_cases hr : r.sign.hasSlack = true
    · have hslacks : slacks x (r :: rows) = slackOf x r :: slacks x rows := by
        simp [slacks, hr]
      simp only [hslacks, List.length_cons, Nat.forall_lt_succ_left, entry_cons_zero,
        entry_cons_succ, hr, count, Nat.add_zero, if_true, forall_const]
      have hshift : ∀ i, s + 1 + i = s + (i + 1) := fun i => by omega
      simp only [hshift]
      tauto
    · have hslacks : slacks x (r :: rows) = slacks x rows := by simp [slacks, hr]
      simp only [hslacks, hr, count]
      tauto

end Equations

section Standardize

theorem room_layout {α : Type} [Scalar α] {p : LinearProgram α} (h : p.WellFormed) :
    Room (layout p) (layout p).structural (layout p).real (p.rowList.map oriented) where
  structural_le := le_rfl
  slack_eq := rfl
  real_le := le_rfl
  artificial_eq := rfl
  coefficients_length r hr := by
    obtain ⟨r', hr', rfl⟩ := List.mem_map.mp hr
    obtain ⟨⟨coefficients, sign, bound⟩, hmem, rfl⟩ := List.mem_map.mp hr'
    rw [length_coefficients_oriented]
    exact (h.rows_fit _ (List.of_mem_zip hmem).1).1

variable {p : LinearProgram Rat}

def standardLines (p : LinearProgram Rat) : List (Nat × List Rat) :=
  standardRows (layout p) (layout p).structural (layout p).real (p.rowList.map oriented)

theorem canonical_standardize (h : p.WellFormed) : (standardize p).Canonical where
  toSolved := Tableau.solved_of_lines (standardLines p) rfl rfl
    (fun line hl => by
      have hfits := lineFits_of_mem (room_layout h) hl
      have hle := (room_layout h).total_le
      refine ⟨hfits.length_eq, ?_, hfits.own⟩
      change line.1 < (layout p).total
      rcases hfits.basic with hb | hb <;> omega)
    (pairwise_standardRows (room_layout h))
  rhs_nonneg row hrow := by
    obtain ⟨line, hl, rfl⟩ := List.mem_map.mp hrow
    obtain ⟨r, hr, he⟩ := bound_of_mem_standardRows (room_layout h) hl
    obtain ⟨r, -, rfl⟩ := List.mem_map.mp hr
    exact (oriented_bound_nonneg r).trans_eq he.symm

theorem solves_standardize_iff (h : p.WellFormed) (hx : ∀ j < p.variableCount, y j = entry x j)
    (hy : ∀ j, 0 ≤ y j) (hart : ∀ j, (layout p).real ≤ j → y j = 0) :
    (standardize p).Solves y ↔ (∀ r ∈ p.rowList, r.Holds x) ∧
      ∀ i < (slacks x p.rowList).length,
        y (p.variableCount + i) = entry (slacks x p.rowList) i := by
  have hlines := lines_hold_iff (room_layout h) hx hy hart
  rw [slacks_map_oriented] at hlines
  simp only [List.forall_mem_map, holds_oriented_iff] at hlines
  rw [Tableau.Solves]
  exact List.forall_mem_map.trans hlines

end Standardize

end LeastCost.Simplex
