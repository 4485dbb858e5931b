import LeastCost.Proofs.Simplex.Optimality
import LeastCost.Proofs.Simplex.Truncation

/-! # Mirrored programs

A row multiplied by minus one is oriented to the same row, unless its bound is zero. So the
standard form of a program and with it every pivot of both phases stay as they are, and only the
slack of a mirrored equation shows a difference. To minimize an objective and to maximize its
negation are the same costs of phase two, so only the value changes its sign.
-/

namespace LeastCost

theorem Scalar.clean_neg (tolerance x : Rat) :
    Scalar.clean tolerance (-x) = -Scalar.clean tolerance x := by
  simp only [Scalar.clean, Scalar.abs_rat, abs_neg]
  split
  · exact neg_zero.symm
  · rfl

def Direction.opposite : Direction → Direction
  | .minimize => .maximize
  | .maximize => .minimize

namespace LinearProgram

variable {α : Type} [Scalar α]

def Row.mirror (r : Row α) : Row α := ⟨r.coefficients.map (- ·), r.sign.flipped, -r.bound⟩

theorem Row.mirror_mirror (r : Row Rat) : r.mirror.mirror = r := by
  simp [Row.mirror]

def mirror (chosen : Nat → Bool) (p : LinearProgram α) : LinearProgram α :=
  { p with
    constraints := p.constraints.mapIdx fun i row => if chosen i then row.map (- ·) else row
    signs := p.signs.mapIdx fun i sign => if chosen i then sign.flipped else sign
    rhs := p.rhs.mapIdx fun i bound => if chosen i then -bound else bound }

def negate (p : LinearProgram α) : LinearProgram α :=
  { p with
    direction := p.direction.opposite
    objective := p.objective.map (- ·) }

/-- The solution with the slacks of the chosen equations negated. -/
def Solution.mirror (chosen : Nat → Bool) (signs : List Sign) (s : Solution α) : Solution α :=
  { s with
    slack := s.slack.mapIdx fun i v =>
      if chosen i = true ∧ signs[i]? = some .equal then -v else v }

def Solution.negate (s : Solution α) : Solution α := { s with value := s.value.map (- ·) }

variable {p : LinearProgram Rat} {chosen : Nat → Bool} {i : Nat}

theorem rowList_fields (h : i < p.rowList.length) :
    p.signs[i]? = some p.rowList[i].sign ∧ p.rhs[i]? = some p.rowList[i].bound := by
  have hlength := h
  simp only [rowList, List.length_map, List.length_zip] at hlength
  rw [List.getElem?_eq_getElem (by omega), List.getElem?_eq_getElem (by omega)]
  simp [rowList]

theorem rowList_mirror (chosen : Nat → Bool) (p : LinearProgram Rat) :
    (p.mirror chosen).rowList =
      p.rowList.mapIdx fun i r => if chosen i then r.mirror else r := by
  apply List.ext_getElem
  · simp [rowList, mirror]
  · intro i hi hi'
    simp only [rowList, mirror, List.getElem_map, List.getElem_zip, List.getElem_mapIdx]
    split
    · rfl
    · rfl

theorem reportNonFinite_rat (place : Place) (values : List Rat) :
    reportNonFinite place values = [] :=
  reportNonFinite_eq_nil_iff.mpr fun v _ => Scalar.isFinite_rat v

theorem reportRows_mapIdx {check : Nat → List Rat → List Violation}
    {change : Nat → List Rat → List Rat}
    (h : ∀ i row, check i (change i row) = check i row) (rows : List (List Rat)) :
    reportRows check (rows.mapIdx change) = reportRows check rows := by
  rw [reportRows, reportRows, List.flatMap_def, List.flatMap_def]
  congr 1
  apply List.ext_getElem
  · simp
  · intro i hi hi'
    simp [h]

/-- Mirroring changes no length, and all numbers are finite. -/
theorem violations_mirror (chosen : Nat → Bool) (p : LinearProgram Rat) :
    (p.mirror chosen).violations = p.violations := by
  simp only [violations, reportNonFinite_rat, List.append_nil, mirror, rowCount, variableCount,
    List.length_mapIdx]
  rw [reportRows_mapIdx]
  intro i row
  split
  · rw [List.length_map]
  · rfl

theorem violations_negate (p : LinearProgram Rat) : p.negate.violations = p.violations := by
  simp only [violations, reportNonFinite_rat, List.append_nil, negate, rowCount, variableCount,
    List.length_map]

end LinearProgram

namespace Simplex

open LinearProgram (Row Solution)

variable {p : LinearProgram Rat} {chosen : Nat → Bool} {s : Settings Rat}

theorem oriented_of_neg {r : Row Rat} (h : r.bound < 0) : oriented r = r.mirror := if_pos h

theorem oriented_of_nonneg {r : Row Rat} (h : 0 ≤ r.bound) : oriented r = r := if_neg h.not_gt

theorem oriented_mirror {r : Row Rat} (h : r.bound ≠ 0) : oriented r.mirror = oriented r := by
  rcases lt_or_gt_of_ne h with hneg | hpos
  · have hmirror : 0 ≤ r.mirror.bound := (neg_pos.mpr hneg).le
    rw [oriented_of_nonneg hmirror, oriented_of_neg hneg]
  · have hmirror : r.mirror.bound < 0 := neg_lt_zero.mpr hpos
    rw [oriented_of_neg hmirror, LinearProgram.Row.mirror_mirror, oriented_of_nonneg hpos.le]

theorem map_oriented_mirror (h : ∀ i b, chosen i = true → p.rhs[i]? = some b → b ≠ 0) :
    (p.mirror chosen).rowList.map oriented = p.rowList.map oriented := by
  rw [LinearProgram.rowList_mirror]
  apply List.ext_getElem
  · simp
  · intro i hi hi'
    rw [List.length_map] at hi'
    simp only [List.getElem_map, List.getElem_mapIdx]
    split
    · next hchosen =>
      apply oriented_mirror
      exact h i _ hchosen (LinearProgram.rowList_fields hi').2
    · rfl

theorem feasibilityScale_mirror (chosen : Nat → Bool) (p : LinearProgram Rat) :
    feasibilityScale (p.mirror chosen) = feasibilityScale p := by
  have habs : (p.mirror chosen).rhs.map Scalar.abs = p.rhs.map Scalar.abs := by
    apply List.ext_getElem
    · simp [LinearProgram.mirror]
    · intro i hi hi'
      simp only [LinearProgram.mirror, List.getElem_map, List.getElem_mapIdx, Scalar.abs_rat]
      split
      · exact abs_neg _
      · rfl
  rw [feasibilityScale, habs, feasibilityScale]

section Standard

variable (h : ∀ i b, chosen i = true → p.rhs[i]? = some b → b ≠ 0)

include h

theorem layout_mirror : layout (p.mirror chosen) = layout p := by
  rw [layout, map_oriented_mirror h]
  rfl

theorem standardize_mirror : standardize (p.mirror chosen) = standardize p := by
  simp only [standardize, layout_mirror h, map_oriented_mirror h]

theorem phaseOne_mirror : phaseOne s (p.mirror chosen) = phaseOne s p := by
  simp only [phaseOne, layout_mirror h, standardize_mirror h, feasibilityScale_mirror]

theorem phaseTwo_mirror (start : Tableau Rat) (pivots : Nat) :
    phaseTwo s (p.mirror chosen) start pivots = phaseTwo s p start pivots := by
  rw [phaseTwo, layout_mirror h]
  rfl

end Standard

section Slack

theorem slack_mirror (x : List Rat) (r : Row Rat) :
    slack x r.mirror = if r.sign = .equal then -slack x r else slack x r := by
  obtain ⟨coefficients, sign, bound⟩ := r
  cases sign with
  | lessEqual =>
    simp only [slack, Row.mirror, Sign.flipped, dot_neg, reduceCtorEq, if_false]
    ring
  | greaterEqual =>
    simp only [slack, Row.mirror, Sign.flipped, dot_neg, reduceCtorEq, if_false]
    ring
  | equal =>
    simp only [slack, Row.mirror, Sign.flipped, dot_neg, if_true]
    ring

theorem clean_slack_mirror (tolerance : Rat) (x : List Rat) (r : Row Rat) (b : Bool) :
    Scalar.clean tolerance (slack x (if b then r.mirror else r)) =
      if b = true ∧ r.sign = .equal then -Scalar.clean tolerance (slack x r)
      else Scalar.clean tolerance (slack x r) := by
  cases b with
  | false => simp
  | true =>
    simp only [if_true, slack_mirror, true_and]
    split
    · exact Scalar.clean_neg _ _
    · rfl

theorem map_slack_mirror (tolerance : Rat) (x : List Rat) :
    (p.mirror chosen).rowList.map (fun r => Scalar.clean tolerance (slack x r)) =
      (p.rowList.map fun r => Scalar.clean tolerance (slack x r)).mapIdx fun i v =>
        if chosen i = true ∧ p.signs[i]? = some .equal then -v else v := by
  rw [LinearProgram.rowList_mirror]
  apply List.ext_getElem
  · simp
  · intro i hi hi'
    rw [List.length_mapIdx, List.length_map] at hi'
    simp only [List.getElem_map, List.getElem_mapIdx, clean_slack_mirror,
      (LinearProgram.rowList_fields hi').1, Option.some.injEq]

theorem optimum_mirror (s : Settings Rat) (p : LinearProgram Rat) (chosen : Nat → Bool)
    (t : Tableau Rat) :
    optimum s (p.mirror chosen) t = (optimum s p t).mirror chosen p.signs :=
  congrArg (fun slack => { optimum s p t with slack }) (map_slack_mirror _ _)

end Slack

section Negate

theorem variableCount_negate (p : LinearProgram Rat) :
    p.negate.variableCount = p.variableCount :=
  List.length_map _

theorem layout_negate (p : LinearProgram Rat) : layout p.negate = layout p :=
  congrArg (Layout.ofRows · (p.rowList.map oriented)) (variableCount_negate p)

theorem phaseOne_negate (s : Settings Rat) (p : LinearProgram Rat) :
    phaseOne s p.negate = phaseOne s p := by
  have hstandard : standardize p.negate = standardize p := by
    rw [standardize, layout_negate]
    rfl
  rw [phaseOne, layout_negate, hstandard]
  rfl

theorem signed_opposite (d : Direction) (v : Rat) : signed d.opposite v = -signed d v := by
  cases d
  · rfl
  · exact (neg_neg v).symm

theorem signed_neg (d : Direction) (v : Rat) : signed d (-v) = -signed d v := by
  cases d <;> rfl

theorem phaseTwoCosts_negate (p : LinearProgram Rat) :
    phaseTwoCosts p.negate (layout p.negate) = phaseTwoCosts p (layout p) := by
  have hobjective : p.negate.objective.map (signed p.negate.direction) =
      p.objective.map (signed p.direction) := by
    rw [LinearProgram.negate, List.map_map]
    apply List.map_congr_left
    intro c _
    rw [Function.comp_apply, signed_opposite, signed_neg, neg_neg]
  rw [phaseTwoCosts_eq, phaseTwoCosts_eq, hobjective, layout_negate, variableCount_negate]

theorem phaseTwo_negate (s : Settings Rat) (p : LinearProgram Rat) (start : Tableau Rat)
    (pivots : Nat) : phaseTwo s p.negate start pivots = phaseTwo s p start pivots := by
  rw [phaseTwo, phaseTwoCosts_negate, phaseTwo]

theorem optimum_negate (s : Settings Rat) (p : LinearProgram Rat) (t : Tableau Rat) :
    optimum s p.negate t = (optimum s p t).negate := by
  have hvalue : (optimum s p.negate t).value = (optimum s p t).value.map (- ·) := by
    rw [optimum_value_eq, optimum_value_eq, Option.map_some, ← Scalar.clean_neg,
      ← signed_opposite]
    rfl
  rw [optimum, variableCount_negate]
  exact congrArg (fun value => { optimum s p t with value }) hvalue

end Negate

section Image

/-- Both phases run on the one program as on the other. -/
structure RunsAlike (s : Settings Rat) (q p : LinearProgram Rat) : Prop where
  rowCount_eq : q.rowCount = p.rowCount
  layout_eq : layout q = layout p
  phaseOne_eq : phaseOne s q = phaseOne s p
  phaseTwo_eq : ∀ start pivots, phaseTwo s q start pivots = phaseTwo s p start pivots

theorem RunsAlike.optimize_eq {q : LinearProgram Rat} {f : Solution Rat → Solution Rat}
    (h : RunsAlike s q p) (hoptimum : ∀ t, optimum s q t = f (optimum s p t))
    (hstatistics : ∀ o statistics, f { o with statistics } = { f o with statistics })
    (hvacant : ∀ o, IsVacant o → f o = o) :
    optimize s q = (optimize s p).map f := by
  -- Every outcome but an optimum is vacant.
  cases hp : phaseOne s p with
  | unbounded => simp only [optimize, h.phaseOne_eq, hp, Except.map]
  | iterationLimit pivots =>
    simp only [optimize, h.phaseOne_eq, hp, h.rowCount_eq, h.layout_eq, Except.map]
    rw [hvacant _ ⟨rfl, rfl, rfl⟩]
  | infeasible pivots =>
    simp only [optimize, h.phaseOne_eq, hp, h.rowCount_eq, h.layout_eq, Except.map]
    rw [hvacant _ ⟨rfl, rfl, rfl⟩]
  | feasible start pivots =>
    rw [optimize_of_feasible (h.phaseOne_eq.trans hp), optimize_of_feasible hp, h.phaseTwo_eq,
      Except.map, conclude, conclude, h.rowCount_eq, h.layout_eq]
    cases (phaseTwo s p start pivots).verdict with
    | optimal =>
      rw [hoptimum]
      exact congrArg Except.ok (hstatistics _ _).symm
    | unbounded => rw [hvacant _ ⟨rfl, rfl, rfl⟩]
    | iterationLimit => rw [hvacant _ ⟨rfl, rfl, rfl⟩]

theorem optimize_mirror (h : ∀ i b, chosen i = true → p.rhs[i]? = some b → b ≠ 0) :
    optimize s (p.mirror chosen) = (optimize s p).map (Solution.mirror chosen p.signs) := by
  have halike : RunsAlike s (p.mirror chosen) p :=
    ⟨List.length_mapIdx, layout_mirror h, phaseOne_mirror h, phaseTwo_mirror h⟩
  apply halike.optimize_eq (optimum_mirror s p chosen) fun _ _ => rfl
  rintro ⟨status, value, point, slack⟩ ⟨-, -, rfl⟩
  rfl

theorem optimize_negate (s : Settings Rat) (p : LinearProgram Rat) :
    optimize s p.negate = (optimize s p).map Solution.negate := by
  have halike : RunsAlike s p.negate p :=
    ⟨rfl, layout_negate p, phaseOne_negate s p, phaseTwo_negate s p⟩
  apply halike.optimize_eq (optimum_negate s p) fun _ _ => rfl
  rintro ⟨status, value, point, slack⟩ ⟨rfl, -, -⟩
  rfl

end Image

/-- The normal form of a program hides how it was written down. Rows multiplied by minus one and
an objective negated for the opposite direction lead to the same run. -/
theorem solve_mirror_negate (s : Settings Rat) (p : LinearProgram Rat) (chosen : Nat → Bool)
    (h : ∀ i b, chosen i = true → p.rhs[i]? = some b → b ≠ 0) :
    solve s (p.mirror chosen) = (solve s p).map (Solution.mirror chosen p.signs) ∧
      solve s p.negate = (solve s p).map Solution.negate := by
  constructor
  · rw [solve, LinearProgram.violations_mirror, optimize_mirror h, accept_map, solve]
  · rw [solve, LinearProgram.violations_negate, optimize_negate, accept_map, solve]

/-- An equation whose solution is within a tolerance of one from zero. -/
def snapped : LinearProgram Rat :=
  { direction := .maximize
    objective := [1, 2]
    constraints := [[4, 0], [1, 1], [-1, 2]]
    signs := [.equal, .greaterEqual, .lessEqual]
    rhs := [3, -2, 5] }

def snappedOptimum : Solution Rat :=
  { Solution.optimum (13 / 2) [0, 23 / 8] [3, 39 / 8, 0] with statistics := ⟨2, 1, 3, 5⟩ }

/-- Of the two rows multiplied by minus one, only the equation shows it. -/
theorem snapped_mirrored :
    solve ⟨1, 20⟩ (snapped.mirror (· < 2)) =
        .ok { snappedOptimum with slack := [-3, 39 / 8, 0] } ∧
      solve ⟨1, 20⟩ snapped.negate = .ok { snappedOptimum with value := some (-13 / 2) } := by
  have hs : solve ⟨1, 20⟩ snapped = .ok snappedOptimum := by decide +kernel
  have hrhs : ∀ i b, decide (i < 2) = true → snapped.rhs[i]? = some b → b ≠ 0 := by
    rintro (_ | _ | i) b hi hb
    · obtain rfl := Option.some.inj hb
      decide +kernel
    · obtain rfl := Option.some.inj hb
      decide +kernel
    · exact absurd (of_decide_eq_true hi) (by omega)
  obtain ⟨hmirror, hnegate⟩ := solve_mirror_negate ⟨1, 20⟩ snapped (· < 2) hrhs
  rw [hs] at hmirror hnegate
  exact ⟨hmirror.trans (by decide +kernel), hnegate.trans (by decide +kernel)⟩

end Simplex

end LeastCost
