import Mathlib.Algebra.Order.BigOperators.Ring.Finset
import LeastCost.Proofs.Simplex.Drift

/-! # Optima within a tolerance

An optimum need not satisfy its rows within the tolerance. How far it can violate them is the
tolerance times what the pivots of its own run drift by, what dropped rows leave over, and the
coefficients of the row.
-/

namespace LeastCost.Simplex

open LinearProgram (Row Solution)

variable {p : LinearProgram Rat} {s : Settings Rat} {tolerance margin : Rat} {x x' : List Rat}
  {r : Row Rat}

section Margins

/-- The row holds at a point up to a margin. -/
def HoldsWithin (margin : Rat) (r : Row Rat) (x : List Rat) : Prop :=
  match r.sign with
  | .lessEqual => Scalar.dot r.coefficients x ≤ r.bound + margin
  | .greaterEqual => r.bound ≤ Scalar.dot r.coefficients x + margin
  | .equal => |Scalar.dot r.coefficients x - r.bound| ≤ margin

/-- What a row that holds up to a margin has as its slack. -/
def SlackWithin (margin : Rat) (sign : Sign) (v : Rat) : Prop :=
  match sign with
  | .lessEqual | .greaterEqual => -margin ≤ v
  | .equal => |v| ≤ margin

theorem holdsWithin_iff (margin : Rat) (r : Row Rat) (x : List Rat) :
    HoldsWithin margin r x ↔ SlackWithin margin r.sign (slack x r) := by
  obtain ⟨coefficients, sign, bound⟩ := r
  cases sign with
  | lessEqual => exact neg_le_sub_iff_le_add.symm
  | greaterEqual => exact neg_le_sub_iff_le_add.symm
  | equal =>
    have hdistance := abs_sub_comm (Scalar.dot coefficients x) bound
    exact iff_of_eq (congrArg (· ≤ margin) hdistance)

def norm (r : Row Rat) : Rat := (r.coefficients.map fun v => |v|).sum

theorem sum_abs_eq (coefficients : List Rat) : (coefficients.map fun v => |v|).sum =
    ∑ j ∈ Finset.range coefficients.length, |entry coefficients j| := by
  have hmap : (coefficients.map fun v => |v|) =
      (List.range coefficients.length).map fun j => |entry coefficients j| := by
    apply List.ext_getElem
    · simp
    · intro j hj _
      have hlt : j < coefficients.length := by simpa using hj
      simp [entry_eq_getElem hlt]
  rw [hmap]
  rfl

theorem abs_dot_sub_le (coefficients : List Rat)
    (hx : ∀ j < coefficients.length, |entry x' j - entry x j| ≤ tolerance) :
    |Scalar.dot coefficients x' - Scalar.dot coefficients x| ≤
      tolerance * (coefficients.map fun v => |v|).sum := by
  rw [dot_eq_eval (n := coefficients.length) _ _ le_rfl,
    dot_eq_eval (n := coefficients.length) _ _ le_rfl, eval, eval, ← Finset.sum_sub_distrib,
    sum_abs_eq, Finset.mul_sum]
  calc |∑ j ∈ Finset.range coefficients.length,
        (entry coefficients j * entry x' j - entry coefficients j * entry x j)|
      ≤ ∑ j ∈ Finset.range coefficients.length,
        |entry coefficients j * entry x' j - entry coefficients j * entry x j| :=
        Finset.abs_sum_le_sum_abs _ _
    _ ≤ ∑ j ∈ Finset.range coefficients.length, tolerance * |entry coefficients j| := by
        refine Finset.sum_le_sum fun j hj => ?_
        rw [← mul_sub, abs_mul, mul_comm]
        exact mul_le_mul_of_nonneg_right (hx j (Finset.mem_range.mp hj)) (abs_nonneg _)

theorem HoldsWithin.near (h : HoldsWithin margin r x)
    (hx : ∀ j < r.coefficients.length, |entry x' j - entry x j| ≤ tolerance) :
    HoldsWithin (margin + tolerance * norm r) r x' := by
  obtain ⟨hlow, hhigh⟩ := abs_le.mp (abs_dot_sub_le r.coefficients hx)
  obtain ⟨coefficients, sign, bound⟩ := r
  simp only [HoldsWithin, norm] at h hlow hhigh ⊢
  cases sign with
  | lessEqual =>
    dsimp only at h ⊢
    linarith
  | greaterEqual =>
    dsimp only at h ⊢
    linarith
  | equal =>
    dsimp only at h ⊢
    obtain ⟨hl, hh⟩ := abs_le.mp h
    exact abs_le.mpr ⟨by linarith, by linarith⟩

end Margins

section Lines

variable {l : Layout} {f a : Nat} {rows : List (Row Rat)} {y : Nat → Rat} {rest : Rat}

theorem holdsWithin_oriented_iff (margin : Rat) (r : Row Rat) (x : List Rat) :
    HoldsWithin margin (oriented r) x ↔ HoldsWithin margin r x := by
  unfold oriented
  split
  · obtain ⟨coefficients, sign, bound⟩ := r
    cases sign with
    | lessEqual =>
      simp only [HoldsWithin, Sign.flipped, dot_neg]
      constructor <;> intro h <;> linarith
    | greaterEqual =>
      simp only [HoldsWithin, Sign.flipped, dot_neg]
      constructor <;> intro h <;> linarith
    | equal =>
      simp only [HoldsWithin, Sign.flipped, dot_neg]
      rw [← abs_neg]
      ring_nf
  · rfl

/-- A line holds its row as far as its slack is not negative and its artificial variable is
small. -/
theorem line_holdsWithin (h : Room l f a (r :: rows)) (hm : 0 ≤ margin) (hrest : 0 ≤ rest)
    (hx : ∀ j < l.structural, y j = entry x j) (hslack : ∀ j < l.real, -margin ≤ y j)
    (ha : |y a| ≤ rest)
    (hline : eval l.total (standardLine l f a r).2 y = entry (standardLine l f a r).2 l.total) :
    HoldsWithin (margin + rest) r x := by
  have hdot : eval l.structural r.coefficients y = Scalar.dot r.coefficients x := by
    rw [dot_eq_eval _ _ (h.coefficients_length r List.mem_cons_self).le]
    exact eval_congr fun j hj => by rw [hx j hj]
  have hf := fun hr => hslack f (h.slack_lt hr)
  have hrest' := abs_le.mp ha
  rw [eval_standardLine h, entry_standardLine_bound h, hdot] at hline
  obtain ⟨coefficients, sign, bound⟩ := r
  simp only [HoldsWithin, slackEntry, Sign.needsArtificial, Sign.hasSlack] at hline hf ⊢
  cases sign with
  | lessEqual =>
    have hf' := hf rfl
    have hline' : Scalar.dot coefficients x + y f = bound := by simpa using hline
    dsimp only
    linarith
  | greaterEqual =>
    have hf' := hf rfl
    have hline' : Scalar.dot coefficients x + -y f + y a = bound := by simpa using hline
    dsimp only
    linarith
  | equal =>
    have hline' : Scalar.dot coefficients x + y a = bound := by simpa using hline
    have hdistance : Scalar.dot coefficients x - bound = -y a := by linarith
    simp only [hdistance, abs_neg]
    linarith

theorem lines_holdWithin (h : Room l f a rows) (hm : 0 ≤ margin) (hrest : 0 ≤ rest)
    (hx : ∀ j < l.structural, y j = entry x j) (hslack : ∀ j < l.real, -margin ≤ y j)
    (hart : ∀ j, l.real ≤ j → |y j| ≤ rest)
    (hlines : ∀ line ∈ standardRows l f a rows, eval l.total line.2 y = entry line.2 l.total) :
    ∀ r ∈ rows, HoldsWithin (margin + rest) r x := by
  induction rows generalizing f a with
  | nil => simp
  | cons r rows ih =>
    rw [standardRows_cons, List.forall_mem_cons] at hlines
    rw [List.forall_mem_cons]
    exact ⟨line_holdsWithin h hm hrest hx hslack (hart a h.real_le) hlines.1, ih h.tail hlines.2⟩

/-- Where the standard form is solved, the rows hold as far as no real variable is negative and the
artificial ones are small. -/
theorem holdsWithin_of_solves (h : p.WellFormed) (hm : 0 ≤ margin) (hrest : 0 ≤ rest)
    (hs : (standardize p).Solves y) (hx : ∀ j < p.variableCount, y j = entry x j)
    (hslack : ∀ j < (layout p).real, -margin ≤ y j)
    (hart : ∀ j, (layout p).real ≤ j → |y j| ≤ rest) :
    ∀ r ∈ p.rowList, HoldsWithin (margin + rest) r x := by
  have hlines := lines_holdWithin (room_layout h) hm hrest hx hslack hart
    (List.forall_mem_map.mp hs)
  intro r hr
  exact (holdsWithin_oriented_iff (margin + rest) r x).mp
    (hlines _ (List.mem_map_of_mem hr))

end Lines

section Optima

variable {start : Tableau Rat} {pivots : Nat} {o : Solution Rat}

theorem HandedOver.phaseTwo (h : HandedOver s p start) (ht : 0 ≤ s.tolerance)
    (hstart : start.Solved) (pivots : Nat) :
    let u := (phaseTwo s p start pivots).tableau
    u.Solved ∧ start.Solves u.solution ∧ 0 ≤ phaseTwoDrift s p start pivots ∧
      ∀ j, -(s.tolerance * phaseTwoDrift s p start pivots) ≤ u.solution j := by
  intro u
  have hpriced := hstart.priceOut (phaseTwoCosts p (layout p))
  have hr := reaches_run s.tolerance (s.maxIterations - pivots) pivots
    (start.priceOut (phaseTwoCosts p (layout p)))
  have hu : u.Solved := hr.solved ht hpriced
  have habove : u.Above (s.tolerance * phaseTwoDrift s p start pivots) :=
    Tableau.Above.run (t := start.priceOut (phaseTwoCosts p (layout p))) hpriced.toShaped ht
      h.drift_nonneg h.above (s.maxIterations - pivots) pivots
  have hdrift : 0 ≤ phaseTwoDrift s p start pivots :=
    Tableau.runDrift_nonneg ht h.drift_nonneg
  exact ⟨hu, (hr.solves_iff ht hpriced).mp hu.solves_solution, hdrift,
    habove.solution_ge hu (mul_nonneg ht hdrift)⟩

theorem residue_nonneg (h : HandedOver s p start) (y : Nat → Rat) :
    0 ≤ residue s p start y := by
  unfold residue
  split
  · exact le_rfl
  · exact add_nonneg h.drift_nonneg (Finset.sum_nonneg fun _ _ => abs_nonneg _)

theorem SlackWithin.clean (h : SlackWithin margin r.sign (slack x r)) (hm : 0 ≤ margin) :
    SlackWithin margin r.sign (Scalar.clean tolerance (slack x r)) := by
  unfold Scalar.clean
  split
  · obtain ⟨coefficients, sign, bound⟩ := r
    cases sign with
    | lessEqual => exact neg_nonpos.mpr hm
    | greaterEqual => exact neg_nonpos.mpr hm
    | equal => exact abs_zero.trans_le hm
  · exact h

theorem norm_nonneg (r : Row Rat) : 0 ≤ norm r :=
  List.sum_nonneg (List.forall_mem_map.mpr fun _ _ => abs_nonneg _)

/-- The point of an optimum is the last basic solution with small values taken for zero. That
solution is below zero by no more than the tolerance times the drift of the pivots, and violates the
rows by no more than this and the residue of dropped rows. The point violates a row by the tolerance
for each unit of its coefficients more, and the slacks say no less. Where all pivots are made in rows
of least ratio and phase one leaves nothing, there is no drift. -/
theorem optimal_holdsWithin (ht : 0 ≤ s.tolerance) (h : solve s p = .ok o)
    (hs : o.status = .optimal) : ∃ start pivots, phaseOne s p = .feasible start pivots ∧
      let y := (phaseTwo s p start pivots).tableau.solution
      let drift := phaseTwoDrift s p start pivots
      o.point = (decisions p y).map (Scalar.clean s.tolerance) ∧
      (∀ j, -(s.tolerance * drift) ≤ y j) ∧
      (∀ r ∈ p.rowList,
        HoldsWithin (s.tolerance * (drift + residue s p start y)) r (decisions p y)) ∧
      List.Forall₂ (fun r v =>
        HoldsWithin (s.tolerance * (drift + residue s p start y + norm r)) r o.point ∧
        SlackWithin (s.tolerance * (drift + residue s p start y + norm r)) r.sign v)
        p.rowList o.slack ∧
      (SteadyRun s p start → drift = 0) := by
  obtain ⟨hvalid, ho⟩ := accept_eq_ok_iff.mp h
  have hwf := LinearProgram.violations_eq_nil_iff.mp hvalid
  obtain ⟨start, pivots, hone, -, -, hpoint, hslack⟩ := exists_optimum_of_optimize ho hs
  have hover := handedOver_of_phaseOne ht hwf hone
  have hstart := (admits_of_phaseOne_feasible ht hwf hone).solved
  obtain ⟨hu, hsolves, hdrift, hnonneg⟩ := hover.phaseTwo ht hstart pivots
  refine ⟨start, pivots, hone, ?_⟩
  intro y drift
  obtain ⟨z, hz, hzreal, hzart⟩ := hover.extends_solution y hsolves
  have hresidue := residue_nonneg hover y
  have hclean : o.point = (decisions p y).map (Scalar.clean s.tolerance) :=
    hpoint.trans (optimum_point_eq hu s p)
  have hbasic : ∀ r ∈ p.rowList,
      HoldsWithin (s.tolerance * (drift + residue s p start y)) r (decisions p y) := by
    rw [mul_add]
    refine holdsWithin_of_solves hwf (mul_nonneg ht hdrift) (mul_nonneg ht hresidue) hz
      (fun j hj => ?_) (fun j hj => hzreal j hj ▸ hnonneg j) hzart
    rw [entry_decisions hj, hzreal j (hj.trans_le (Nat.le_add_right _ _))]
  have hrows : ∀ r ∈ p.rowList,
      HoldsWithin (s.tolerance * (drift + residue s p start y + norm r)) r o.point := by
    intro r hr
    rw [mul_add]
    refine (hbasic r hr).near fun j _ => ?_
    rw [hclean, entry_map (Scalar.clean_of_zero s.tolerance)]
    exact Scalar.abs_clean_sub_le _ ht
  refine ⟨hclean, hnonneg, hbasic, ?_, fun hsteady => hsteady.phaseTwoDrift_eq_zero pivots⟩
  have hslack' : o.slack = p.rowList.map fun r => Scalar.clean s.tolerance (slack o.point r) := by
    rw [hslack, hpoint]
    rfl
  rw [hslack']
  refine List.forall₂_map_right_iff.mpr (List.forall₂_same.mpr fun r hr => ⟨hrows r hr, ?_⟩)
  exact ((holdsWithin_iff _ _ _).mp (hrows r hr)).clean
    (mul_nonneg ht (add_nonneg (add_nonneg hdrift hresidue) (norm_nonneg r)))

/-- Two rows whose ratios are a tie within the tolerance, one of them with a large coefficient. -/
def steep : LinearProgram Rat :=
  { direction := .maximize
    objective := [1]
    constraints := [[1], [2 ^ 30]]
    signs := [.lessEqual, .lessEqual]
    rhs := [1 + 1 / 2 ^ 31, 2 ^ 30] }

def steepOptimum : Solution Rat :=
  { Solution.optimum (1 + 1 / 2 ^ 31) [1 + 1 / 2 ^ 31] [0, -1 / 2] with
    statistics := ⟨1, 0, 2, 3⟩ }

/-- An optimum that violates a row by half a billion tolerances. -/
theorem steep_violated : steep.violations = [] ∧
    solve ⟨1 / 10 ^ 9, 5000⟩ steep = .ok steepOptimum ∧ steepOptimum.status = .optimal ∧
    ∃ v ∈ steepOptimum.slack, v < -(1 / 10 ^ 9) := by
  decide +kernel

/-- Two equations that differ by little, so that one of them is dropped. -/
def worn : LinearProgram Rat :=
  { direction := .minimize
    objective := [3, 1]
    constraints := [[1, 1], [1, 21 / 20]]
    signs := [.equal, .equal]
    rhs := [200, 200] }

def wornOptimum : Solution Rat :=
  { Solution.optimum (4000 / 21) [0, 4000 / 21] [200 / 21, 0] with statistics := ⟨1, 1, 2, 4⟩ }

/-- A near tie adds to the drift of `steep`, and a dropped row of `worn` leaves a residue. -/
theorem steep_worn_hold : solve ⟨1 / 10 ^ 9, 5000⟩ steep = .ok steepOptimum ∧
    HoldsWithin (1 / 10 ^ 9 * (2 ^ 30 + 2 + 1 / 2 ^ 31 + 0 + 2 ^ 30))
      ⟨[2 ^ 30], .lessEqual, 2 ^ 30⟩ steepOptimum.point ∧
    solve ⟨1 / 10, 50⟩ worn = .ok wornOptimum ∧
    HoldsWithin (1 / 10 * (401 + (401 + 4000 / 21) + 2)) ⟨[1, 1], .equal, 200⟩
      wornOptimum.point ∧
    ¬ HoldsWithin (1 / 10 * 95) ⟨[1, 1], .equal, 200⟩ wornOptimum.point := by
  have hsteep : solve ⟨1 / 10 ^ 9, 5000⟩ steep = .ok steepOptimum := by decide +kernel
  have hworn : solve ⟨1 / 10, 50⟩ worn = .ok wornOptimum := by decide +kernel
  refine ⟨hsteep, ?_, hworn, ?_, ?_⟩
  · obtain ⟨start, pivots, hone, -, -, -, hrows, -⟩ :=
      optimal_holdsWithin (by decide +kernel) hsteep rfl
    have hbounds : (match phaseOne ⟨1 / 10 ^ 9, 5000⟩ steep with
        | .feasible start pivots => (phaseTwoDrift ⟨1 / 10 ^ 9, 5000⟩ steep start pivots,
            residue ⟨1 / 10 ^ 9, 5000⟩ steep start
              (phaseTwo ⟨1 / 10 ^ 9, 5000⟩ steep start pivots).tableau.solution)
        | _ => (0, 0)) = (2 ^ 30 + 2 + 1 / 2 ^ 31, 0) := by decide +kernel
    rw [hone] at hbounds
    obtain ⟨hdrift, hresidue⟩ := Prod.mk.inj hbounds
    rw [hdrift, hresidue] at hrows
    obtain _ | ⟨-, _ | ⟨hrow, -⟩⟩ := hrows
    have hnorm : norm ⟨[2 ^ 30], .lessEqual, 2 ^ 30⟩ = 2 ^ 30 := by decide +kernel
    have hrow' : HoldsWithin (1 / 10 ^ 9 * (2 ^ 30 + 2 + 1 / 2 ^ 31 + 0 +
      norm ⟨[2 ^ 30], .lessEqual, 2 ^ 30⟩)) ⟨[2 ^ 30], .lessEqual, 2 ^ 30⟩
        steepOptimum.point := hrow.1
    rwa [hnorm] at hrow'
  · obtain ⟨start, pivots, hone, -, -, -, hrows, -⟩ :=
      optimal_holdsWithin (by decide +kernel) hworn rfl
    have hbounds : (match phaseOne ⟨1 / 10, 50⟩ worn with
        | .feasible start pivots => (phaseTwoDrift ⟨1 / 10, 50⟩ worn start pivots,
            residue ⟨1 / 10, 50⟩ worn start
              (phaseTwo ⟨1 / 10, 50⟩ worn start pivots).tableau.solution)
        | _ => (0, 0)) = (401, 401 + 4000 / 21) := by decide +kernel
    rw [hone] at hbounds
    obtain ⟨hdrift, hresidue⟩ := Prod.mk.inj hbounds
    rw [hdrift, hresidue] at hrows
    obtain _ | ⟨hrow, -⟩ := hrows
    have hnorm : norm ⟨[1, 1], .equal, 200⟩ = 2 := by decide +kernel
    have hrow' : HoldsWithin (1 / 10 * (401 + (401 + 4000 / 21) + norm ⟨[1, 1], .equal, 200⟩))
      ⟨[1, 1], .equal, 200⟩ wornOptimum.point := hrow.1
    rwa [hnorm] at hrow'
  · rw [HoldsWithin]
    decide +kernel

end Optima

end LeastCost.Simplex
