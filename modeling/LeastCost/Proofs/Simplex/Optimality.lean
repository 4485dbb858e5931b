import LeastCost.Proofs.Simplex.Phases

/-! # Verdicts of the simplex method

Without tolerance every verdict on a well-formed linear program is right: an optimum is feasible
and unsurpassed, an infeasible program has no feasible point, and an unbounded one has feasible
points better than any bound. Only the limit of pivots leaves a program undecided.
-/

namespace LeastCost.Simplex

open LinearProgram (Solution)

variable {p : LinearProgram Rat} {limit pivots : Nat} {x : List Rat} {start : Tableau Rat}
  {s : Solution Rat}

section BasicValues

variable {t : Tableau Rat} {j : Nat}

theorem entry_foldl_set {β : Type} (f : β → Rat) {lines : List (Nat × β)}
    (hn : (lines.map (·.1)).Nodup) (values : List Rat) (hj : j < values.length) :
    entry (lines.foldl (fun values line => values.set line.1 (f line.2)) values) j =
      (lines.map fun line => if line.1 = j then f line.2 else 0).sum +
        if j ∈ lines.map (·.1) then 0 else entry values j := by
  induction lines generalizing values with
  | nil => simp
  | cons line lines ih =>
    rw [List.map_cons, List.nodup_cons] at hn
    rw [List.foldl_cons, ih hn.2 _ (by simpa using hj), List.map_cons, List.sum_cons]
    by_cases he : line.1 = j
    · have hnot : j ∉ lines.map (·.1) := he ▸ hn.1
      have hzero : (lines.map fun line => if line.1 = j then f line.2 else 0).sum = 0 :=
        List.sum_eq_zero fun v hv => by
          obtain ⟨line', hl, rfl⟩ := List.mem_map.mp hv
          exact if_neg fun he' : line'.1 = j => hnot (he' ▸ List.mem_map_of_mem hl)
      rw [if_neg hnot, hzero, entry_set (he ▸ hj), if_pos he.symm, if_pos he, if_pos (by simp [he])]
      ring
    · have hset : entry (values.set line.1 (f line.2)) j = entry values j := by
        by_cases hl : line.1 < values.length
        · rw [entry_set hl, if_neg (Ne.symm he)]
        · rw [List.set_eq_of_length_le (not_lt.mp hl)]
      rw [if_neg he, hset, zero_add, List.map_cons]
      simp only [List.mem_cons, Ne.symm he, false_or]

theorem basicValues_clean (h : t.Solved) (count : Nat) (tolerance : Rat) :
    t.basicValues count tolerance =
      (List.range count).map fun j => Scalar.clean tolerance (t.solution j) := by
  have hlength : ∀ (lines : List (Nat × List Rat)) (values : List Rat),
      (lines.foldl (fun values line =>
        values.set line.1 (Scalar.clean tolerance (t.rhs line.2))) values).length =
          values.length := by
    intro lines
    induction lines with
    | nil => simp
    | cons line lines ih => intro values; rw [List.foldl_cons, ih, List.length_set]
  have hnodup : ((t.basis.zip t.rows).map (·.1)).Nodup := by
    rw [List.map_fst_zip (by rw [h.basis_length])]
    exact h.basis_nodup
  have hfold : t.basicValues count tolerance = (t.basis.zip t.rows).foldl
      (fun values line => values.set line.1 (Scalar.clean tolerance (t.rhs line.2)))
      (List.replicate count 0) := rfl
  apply List.ext_getElem
  · rw [hfold, hlength]
    simp
  · intro j hj hj'
    rw [List.length_map, List.length_range] at hj'
    rw [← entry_eq_getElem, List.getElem_map, List.getElem_range, hfold,
      entry_foldl_set (fun row => Scalar.clean tolerance (t.rhs row)) hnodup _
        (by simpa using hj'),
      Tableau.sum_zip h.toShaped fun line =>
        if line.1 = j then Scalar.clean tolerance (t.rhs line.2) else 0, Tableau.solution,
      ← h.basicPoint_comp (Scalar.clean_of_zero tolerance)]
    simp [Tableau.basicPoint]

theorem basicValues_eq (h : t.Solved) (count : Nat) :
    t.basicValues count 0 = (List.range count).map t.solution := by
  simp only [basicValues_clean h, Scalar.clean_zero]

theorem optimum_point_eq (h : t.Solved) (s : Settings Rat) (p : LinearProgram Rat) :
    (optimum s p t).point = (decisions p t.solution).map (Scalar.clean s.tolerance) := by
  rw [decisions, List.map_map]
  exact basicValues_clean h p.variableCount s.tolerance

theorem optimum_value_eq (s : Settings Rat) (p : LinearProgram Rat) (t : Tableau Rat) :
    (optimum s p t).value =
      some (Scalar.clean s.tolerance (signed p.direction t.objective)) := by
  simp only [optimum, Solution.optimum]
  cases p.direction <;> rfl

end BasicValues

theorem slack_eq_slackOf {r : LinearProgram.Row Rat} (h : r.Holds x) :
    Scalar.clean 0 (slack x r) = slackOf x r ∧
      (r.sign = .equal → Scalar.clean 0 (slack x r) = 0) := by
  obtain ⟨coefficients, sign, bound⟩ := r
  rw [Scalar.clean_zero]
  cases sign with
  | lessEqual => exact ⟨(abs_of_nonneg (sub_nonneg.mpr h)).symm, by simp⟩
  | greaterEqual =>
    refine ⟨?_, by simp⟩
    rw [slackOf, ← neg_sub, abs_neg]
    exact (abs_of_nonneg (sub_nonneg.mpr h)).symm
  | equal =>
    have he : slack x ⟨coefficients, .equal, bound⟩ = 0 := sub_eq_zero.mpr (Eq.symm h)
    refine ⟨?_, fun _ => he⟩
    rw [he, slackOf]
    exact (abs_eq_zero.mpr (sub_eq_zero.mpr (Eq.symm h))).symm

theorem length_rowList {α : Type} [Scalar α] {p : LinearProgram α} (h : p.WellFormed) :
    p.rowList.length = p.rowCount := by
  simp [LinearProgram.rowList, h.rhs_length, h.signs_length, LinearProgram.rowCount]

section Verdicts

theorem Start.optimum_feasible (hs : Start p start) (h : p.WellFormed) (limit pivots : Nat) :
    p.Feasible (optimum ⟨0, limit⟩ p (phaseTwo ⟨0, limit⟩ p start pivots).tableau).point := by
  have hr := reaches_run 0 (limit - pivots) pivots (start.priceOut (phaseTwoCosts p (layout p)))
  have hcanonical := hr.canonical (hs.canonical.priceOut _)
  have hsolves := (hr.solves_iff le_rfl (hs.canonical.priceOut _).toSolved).mp
    hcanonical.toSolved.solves_solution
  have hpoint := basicValues_eq hcanonical.toSolved p.variableCount
  have hfeasible := hs.feasible_decisions h hcanonical.solution_nonneg hsolves
  rw [decisions, ← hpoint] at hfeasible
  exact hfeasible

theorem Start.optimum_value (hs : Start p start) (limit pivots : Nat) :
    let u := (phaseTwo ⟨0, limit⟩ p start pivots).tableau
    u.objective = signed p.direction (p.objectiveValue (optimum ⟨0, limit⟩ p u).point) ∧
      (optimum ⟨0, limit⟩ p u).value =
        some (p.objectiveValue (optimum ⟨0, limit⟩ p u).point) := by
  intro u
  have hr := reaches_run 0 (limit - pivots) pivots (start.priceOut (phaseTwoCosts p (layout p)))
  have hstart := (hs.canonical.priceOut (phaseTwoCosts p (layout p))).toSolved
  have hsolved : u.Solved := hr.solved le_rfl hstart
  have hpoint : (optimum ⟨0, limit⟩ p u).point = decisions p u.solution :=
    basicValues_eq hsolved p.variableCount
  have hobjective : u.objective =
      signed p.direction (p.objectiveValue (optimum ⟨0, limit⟩ p u).point) := by
    rw [hpoint]
    exact objective_eq_of_priced hsolved (hr.columns_eq.trans hs.columns_eq)
      (hr.priced le_rfl hstart hs.priced)
  refine ⟨hobjective, ?_⟩
  rw [optimum_value_eq, Scalar.clean_zero, hobjective, signed_signed]

theorem Start.optimum_unsurpassed (hs : Start p start) (h : p.WellFormed)
    (hv : (phaseTwo ⟨0, limit⟩ p start pivots).verdict = .optimal) (hx : p.Feasible x) :
    ¬ p.direction.Better (p.objectiveValue x) (p.objectiveValue
      (optimum ⟨0, limit⟩ p (phaseTwo ⟨0, limit⟩ p start pivots).tableau).point) := by
  have hle := run_optimal (hs.canonical.priceOut _) hs.priced hv (y := withSlacks p x)
    (hs.solves_withSlacks h hx) fun j _ => withSlacks_nonneg hx.nonneg j
  have hcost := eval_phaseTwoCosts (p := p) fun j hj => withSlacks_decision hx.length_eq hj
  rw [← hs.columns_eq] at hcost
  rw [better_iff, not_lt, ← (hs.optimum_value limit pivots).1, ← hcost]
  exact hle

theorem Start.exists_better (hs : Start p start) (h : p.WellFormed)
    (hv : (phaseTwo ⟨0, limit⟩ p start pivots).verdict = .unbounded) (bound : Rat) :
    ∃ x, p.Feasible x ∧ p.direction.Better (p.objectiveValue x) bound := by
  obtain ⟨y, hsolves, hy, hc⟩ := run_unbounded (hs.canonical.priceOut _) hs.priced hv
    (signed p.direction bound)
  refine ⟨decisions p y, hs.feasible_decisions h hy hsolves, ?_⟩
  rw [better_iff, ← eval_phaseTwoCosts fun j hj => (entry_decisions hj).symm, ← hs.columns_eq]
  exact hc

theorem exists_optimum_of_optimize {settings : Settings Rat} (h : optimize settings p = .ok s)
    (hs : s.status = .optimal) : ∃ start pivots, phaseOne settings p = .feasible start pivots ∧
      (phaseTwo settings p start pivots).verdict = .optimal ∧
      s.value = (optimum settings p (phaseTwo settings p start pivots).tableau).value ∧
      s.point = (optimum settings p (phaseTwo settings p start pivots).tableau).point ∧
      s.slack = (optimum settings p (phaseTwo settings p start pivots).tableau).slack := by
  simp only [optimize] at h
  cases hone : phaseOne settings p with
  | unbounded => simp [hone] at h
  | iterationLimit pivots =>
    simp only [hone, Except.ok.injEq] at h
    simp [← h, limitReached] at hs
  | infeasible pivots =>
    simp only [hone, Except.ok.injEq] at h
    simp [← h, infeasible] at hs
  | feasible start pivots =>
    simp only [hone, Except.ok.injEq] at h
    subst h
    cases hv : (phaseTwo settings p start pivots).verdict with
    | unbounded => simp [hv, unbounded] at hs
    | iterationLimit => simp [hv, limitReached] at hs
    | optimal => exact ⟨start, pivots, rfl, hv, rfl, rfl, rfl⟩

end Verdicts

/-- An optimum without tolerance is a feasible point that no feasible point surpasses, with its
own objective value and the distances of its rows from their bounds. -/
theorem optimal_feasible_unsurpassed (h : solve ⟨0, limit⟩ p = .ok s) (hs : s.status = .optimal) :
    p.Feasible s.point ∧ s.value = some (p.objectiveValue s.point) ∧
      s.slack.length = p.rowCount ∧
      List.Forall₂ (fun r v => v = slackOf s.point r ∧ 0 ≤ v ∧ (r.sign = .equal → v = 0))
        p.rowList s.slack ∧
      ∀ x, p.Feasible x →
        ¬ p.direction.Better (p.objectiveValue x) (p.objectiveValue s.point) := by
  obtain ⟨hvalid, hs'⟩ := accept_eq_ok_iff.mp h
  have hwf := LinearProgram.violations_eq_nil_iff.mp hvalid
  simp only [optimize] at hs'
  cases hone : phaseOne ⟨0, limit⟩ p with
  | unbounded => simp [hone] at hs'
  | iterationLimit pivots =>
    simp only [hone, Except.ok.injEq] at hs'
    simp [← hs', limitReached] at hs
  | infeasible pivots =>
    simp only [hone, Except.ok.injEq] at hs'
    simp [← hs', infeasible] at hs
  | feasible start pivots =>
    have hstart := start_of_phaseOne_feasible hwf hone
    simp only [hone, Except.ok.injEq] at hs'
    cases htwo : (phaseTwo ⟨0, limit⟩ p start pivots).verdict with
    | unbounded => simp [← hs', htwo, unbounded] at hs
    | iterationLimit => simp [← hs', htwo, limitReached] at hs
    | optimal =>
      rw [htwo] at hs'
      subst hs'
      have hfeasible := hstart.optimum_feasible hwf limit pivots
      refine ⟨hfeasible, (hstart.optimum_value limit pivots).2, ?_, ?_,
        fun x hx => hstart.optimum_unsurpassed hwf htwo hx⟩
      · simp [optimum, Solution.optimum, length_rowList hwf]
      · refine List.forall₂_map_right_iff.mpr (List.forall₂_same.mpr fun r hr => ?_)
        obtain ⟨he, hz⟩ := slack_eq_slackOf (hfeasible.holds r hr)
        exact ⟨he, he ▸ abs_nonneg _, hz⟩

/-- Rows of all signs, one with a negative bound, and one equation twice. -/
def blending : LinearProgram Rat :=
  { direction := .maximize
    objective := [3, 2, -1]
    constraints := [[1, 1, 1], [1, -1, 0], [2, 2, 2], [1, 0, 0], [0, 1, -1]]
    signs := [.equal, .greaterEqual, .equal, .lessEqual, .greaterEqual]
    rhs := [4, -2, 8, 3, 1 / 2] }

def blendingOptimum : Solution Rat :=
  { Solution.optimum 11 [3, 1, 0] [0, 4, 0, 0, 1 / 2] with statistics := ⟨5, 3, 5, 9⟩ }

theorem blending_unsurpassed :
    solve ⟨0, 20⟩ blending = .ok blendingOptimum ∧ blendingOptimum.status = .optimal ∧
      blending.Feasible [3, 1, 0] ∧
      ∀ x, blending.Feasible x → ¬ 11 < blending.objectiveValue x := by
  have hs : solve ⟨0, 20⟩ blending = .ok blendingOptimum := by decide +kernel
  have hvalue : blending.objectiveValue blendingOptimum.point = 11 := by decide +kernel
  obtain ⟨hfeasible, -, -, -, hbest⟩ := optimal_feasible_unsurpassed hs rfl
  exact ⟨hs, rfl, hfeasible, fun x hx => hvalue ▸ hbest x hx⟩

/-- Without tolerance a well-formed program always has an outcome. It is infeasible or unbounded
only where this is so. -/
theorem outcome_infeasible_or_unbounded (h : p.violations = []) (limit : Nat) :
    ∃ s, solve ⟨0, limit⟩ p = .ok s ∧
      (s.status = .infeasible → ∀ x, ¬ p.Feasible x) ∧
      (s.status = .unbounded → (∃ x, p.Feasible x) ∧
        ∀ bound, ∃ x, p.Feasible x ∧ p.direction.Better (p.objectiveValue x) bound) := by
  have hwf := LinearProgram.violations_eq_nil_iff.mp h
  simp only [solve, accept_eq_ok_iff, h, true_and, optimize]
  cases hone : phaseOne ⟨0, limit⟩ p with
  | unbounded => exact absurd hone (phaseOne_ne_unbounded hwf)
  | iterationLimit pivots => exact ⟨_, rfl, by simp [limitReached], by simp [limitReached]⟩
  | infeasible pivots =>
    exact ⟨_, rfl, fun _ x => not_feasible_of_phaseOne_infeasible hwf hone, by simp [infeasible]⟩
  | feasible start pivots =>
    have hstart := start_of_phaseOne_feasible hwf hone
    refine ⟨_, rfl, ?_⟩
    cases htwo : (phaseTwo ⟨0, limit⟩ p start pivots).verdict with
    | optimal => simp [optimum, Solution.optimum]
    | iterationLimit => simp [limitReached]
    | unbounded =>
      refine ⟨by simp [unbounded], fun _ => ?_⟩
      have hbetter := hstart.exists_better hwf htwo
      exact ⟨(hbetter 0).imp fun _ hx => hx.1, hbetter⟩

/-- An equation and a lower bound that leave a ray to grow along. -/
def growing : LinearProgram Rat :=
  { direction := .maximize
    objective := [1, 2]
    constraints := [[1, -1], [1, 0]]
    signs := [.equal, .greaterEqual]
    rhs := [-1, 2] }

def crossed : LinearProgram Rat :=
  { direction := .minimize
    objective := [1, 0]
    constraints := [[1, 1], [0, -1]]
    signs := [.equal, .lessEqual]
    rhs := [1, -2] }

theorem growing_unbounded_crossed_infeasible :
    growing.violations = [] ∧
      solve ⟨0, 10⟩ growing = .ok { unbounded with statistics := ⟨2, 2, 2, 5⟩ } ∧
      (∃ x, growing.Feasible x) ∧
      (∀ bound, ∃ x, growing.Feasible x ∧ bound < growing.objectiveValue x) ∧
      crossed.violations = [] ∧
      solve ⟨0, 10⟩ crossed = .ok { infeasible with statistics := ⟨1, 1, 2, 5⟩ } ∧
      ∀ x, ¬ crossed.Feasible x := by
  have hgrowing : growing.violations = [] := by decide +kernel
  have hcrossed : crossed.violations = [] := by decide +kernel
  obtain ⟨s, hs, -, hunbounded⟩ := outcome_infeasible_or_unbounded hgrowing 10
  obtain ⟨s', hs', hinfeasible, -⟩ := outcome_infeasible_or_unbounded hcrossed 10
  have he : solve ⟨0, 10⟩ growing = .ok { unbounded with statistics := ⟨2, 2, 2, 5⟩ } := by
    decide +kernel
  have he' : solve ⟨0, 10⟩ crossed = .ok { infeasible with statistics := ⟨1, 1, 2, 5⟩ } := by
    decide +kernel
  obtain rfl := Except.ok.inj (hs.symm.trans he)
  obtain rfl := Except.ok.inj (hs'.symm.trans he')
  obtain ⟨hsome, hbetter⟩ := hunbounded rfl
  exact ⟨hgrowing, he, hsome, hbetter, hcrossed, he', hinfeasible rfl⟩

end LeastCost.Simplex
