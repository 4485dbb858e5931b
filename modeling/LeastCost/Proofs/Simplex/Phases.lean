import LeastCost.Proofs.Simplex.Expulsion
import LeastCost.Proofs.Simplex.Run
import LeastCost.Proofs.Simplex.StandardForm
import LeastCost.Simplex.Solve

/-! # The two phases

Without tolerance, phase one decides whether a program is feasible, and where it is, hands over a
canonical tableau whose non-negative solutions are the feasible points. Phase two minimizes the
cost of these points.
-/

namespace LeastCost.Simplex

variable {p : LinearProgram Rat} {limit pivots : Nat} {x : List Rat} {y : Nat → Rat}
  {start : Tableau Rat}

section Points

def decisions (p : LinearProgram Rat) (y : Nat → Rat) : List Rat :=
  (List.range p.variableCount).map y

def withSlacks (p : LinearProgram Rat) (x : List Rat) : Nat → Rat :=
  entry (x ++ slacks x p.rowList)

@[simp] theorem length_decisions : (decisions p y).length = p.variableCount := by
  simp [decisions]

theorem entry_decisions {j : Nat} (hj : j < p.variableCount) : entry (decisions p y) j = y j := by
  rw [entry_eq_getElem (by simpa using hj)]
  simp [decisions]

theorem length_slacks (p : LinearProgram Rat) (x : List Rat) :
    p.variableCount + (slacks x p.rowList).length = (layout p).real := by
  rw [← slacks_map_oriented, slacks, List.length_map, ← List.countP_eq_length_filter]
  rfl

theorem withSlacks_decision (hx : x.length = p.variableCount) {j : Nat}
    (hj : j < p.variableCount) : withSlacks p x j = entry x j :=
  entry_append_left (hx ▸ hj)

theorem withSlacks_nonneg (hx : ∀ v ∈ x, 0 ≤ v) (j : Nat) : 0 ≤ withSlacks p x j :=
  entry_nonneg (fun v hv => (List.mem_append.mp hv).elim (hx v) (slacks_nonneg v)) j

theorem withSlacks_artificial (hx : x.length = p.variableCount) {j : Nat}
    (hj : (layout p).real ≤ j) : withSlacks p x j = 0 := by
  refine entry_of_le ?_
  rw [List.length_append, hx, length_slacks]
  exact hj

theorem solves_withSlacks (h : p.WellFormed) (hx : p.Feasible x) :
    (standardize p).Solves (withSlacks p x) := by
  refine (solves_standardize_iff h (x := x) (fun j => withSlacks_decision hx.length_eq)
    (withSlacks_nonneg hx.nonneg) fun j => withSlacks_artificial hx.length_eq).mpr
    ⟨hx.holds, fun i _ => ?_⟩
  rw [withSlacks, ← hx.length_eq]
  exact entry_append_add _

theorem feasible_decisions (h : p.WellFormed) (hs : (standardize p).Solves y)
    (hy : ∀ j, 0 ≤ y j) (hart : ∀ j, (layout p).real ≤ j → y j = 0) :
    p.Feasible (decisions p y) where
  length_eq := length_decisions
  nonneg v hv := by
    obtain ⟨j, -, rfl⟩ := List.mem_map.mp hv
    exact hy j
  holds := ((solves_standardize_iff h (fun j hj => (entry_decisions hj).symm) hy hart).mp hs).1

theorem realPart_of_artificial {real : Nat} (hart : ∀ j, real ≤ j → y j = 0) :
    Tableau.realPart real y = y := by
  funext j
  unfold Tableau.realPart
  split
  · rfl
  · next hj => exact (hart j (not_lt.mp hj)).symm

end Points

section PhaseOne

theorem layout_real_le {α : Type} [Scalar α] (p : LinearProgram α) :
    (layout p).real ≤ (layout p).total :=
  Nat.le_add_right _ _

theorem length_phaseOneCosts {α : Type} [Scalar α] (p : LinearProgram α) :
    (phaseOneCosts (layout p) : List α).length = (layout p).total := by
  have := layout_real_le p
  simp [phaseOneCosts]
  omega

theorem entry_phaseOneCosts {l : Layout} {j : Nat} (hl : l.real ≤ l.total) (hj : j < l.total) :
    entry (phaseOneCosts l : List Rat) j = if j < l.real then 0 else 1 := by
  rw [phaseOneCosts]
  split_ifs with hr
  · rw [entry_append_left (by simpa using hr), entry_replicate_zero]
  · obtain ⟨k, rfl⟩ : ∃ k, j = (List.replicate l.real (0 : Rat)).length + k :=
      ⟨j - l.real, by simp; omega⟩
    simp only [List.length_replicate] at hj hr
    rw [entry_append_add, entry_eq_getElem (by simp; omega), List.getElem_replicate]

theorem eval_phaseOneCosts_nonneg (hy : ∀ j, 0 ≤ y j) :
    0 ≤ eval (layout p).total (phaseOneCosts (layout p)) y :=
  eval_nonneg fun j hj => by
    rw [entry_phaseOneCosts (layout_real_le p) hj]
    split
    · simp
    · simpa using hy j

theorem eval_phaseOneCosts_eq_zero (hart : ∀ j, (layout p).real ≤ j → y j = 0) :
    eval (layout p).total (phaseOneCosts (layout p)) y = 0 :=
  Finset.sum_eq_zero fun j hj => by
    rw [entry_phaseOneCosts (layout_real_le p) (Finset.mem_range.mp hj)]
    split
    · rw [zero_mul]
    · next hr => rw [hart j (not_lt.mp hr), mul_zero]

theorem artificial_eq_zero (hy : ∀ j, 0 ≤ y j)
    (hc : eval (layout p).total (phaseOneCosts (layout p)) y = 0) {j : Nat}
    (hj : (layout p).real ≤ j) (hj' : j < (layout p).total) : y j = 0 := by
  have hterm := (Finset.sum_eq_zero_iff_of_nonneg fun k hk => ?_).mp hc j
    (Finset.mem_range.mpr hj')
  · rwa [entry_phaseOneCosts (layout_real_le p) hj', if_neg (not_lt.mpr hj), one_mul] at hterm
  · rw [entry_phaseOneCosts (layout_real_le p) (Finset.mem_range.mp hk)]
    split
    · simp
    · simpa using hy k

def phaseOneRun (limit : Nat) (p : LinearProgram Rat) : Run Rat :=
  run 0 limit 0 ((standardize p).priceOut (phaseOneCosts (layout p)))

theorem priced_phaseOne (h : p.WellFormed) :
    ((standardize p).priceOut (phaseOneCosts (layout p))).Priced (phaseOneCosts (layout p)) :=
  Tableau.priced_priceOut (canonical_standardize h).toSolved (length_phaseOneCosts p)

theorem phaseOne_eq (limit : Nat) (p : LinearProgram Rat) : phaseOne ⟨0, limit⟩ p =
    if (layout p).real < (layout p).total then
      match (phaseOneRun limit p).verdict with
      | .iterationLimit => .iterationLimit (phaseOneRun limit p).pivots
      | .unbounded => .unbounded
      | .optimal =>
        if 0 < (phaseOneRun limit p).tableau.objective then
          .infeasible (phaseOneRun limit p).pivots
        else .feasible (((phaseOneRun limit p).tableau.expelArtificials (layout p).real
          0).dropArtificialColumns (layout p).real) (phaseOneRun limit p).pivots
    else .feasible (standardize p) 0 := by
  simp only [phaseOne, phaseOneRun, zero_mul]
  rfl

theorem phaseOneRun_verdict_ne_unbounded (h : p.WellFormed) :
    (phaseOneRun limit p).verdict ≠ .unbounded := by
  intro hv
  obtain ⟨y, -, hy, hc⟩ :=
    run_unbounded ((canonical_standardize h).priceOut _) (priced_phaseOne h) hv 0
  exact absurd hc (not_lt.mpr (eval_phaseOneCosts_nonneg hy))

/-- The sum of the artificial variables always has a lower bound. -/
theorem phaseOne_ne_unbounded (h : p.WellFormed) : phaseOne ⟨0, limit⟩ p ≠ .unbounded := by
  rw [phaseOne_eq]
  split
  · split
    · simp
    · next hv => exact absurd hv (phaseOneRun_verdict_ne_unbounded h)
    · split <;> simp
  · simp

theorem not_feasible_of_phaseOne_infeasible (h : p.WellFormed)
    (hi : phaseOne ⟨0, limit⟩ p = .infeasible pivots) : ¬ p.Feasible x := by
  intro hx
  rw [phaseOne_eq] at hi
  split at hi
  · split at hi
    · simp at hi
    · simp at hi
    · next hv =>
      split at hi
      · next hpos =>
        have hle := run_optimal ((canonical_standardize h).priceOut _) (priced_phaseOne h) hv
          (y := withSlacks p x) (solves_withSlacks h hx) fun j _ => withSlacks_nonneg hx.nonneg j
        have hzero := eval_phaseOneCosts_eq_zero (p := p) (y := withSlacks p x)
          fun j => withSlacks_artificial hx.length_eq
        exact absurd (hle.trans_eq hzero) (not_le.mpr hpos)
      · simp at hi
  · simp at hi

/-- What phase two starts from: a canonical tableau of the real columns whose solutions are
those of the standard form without artificial parts. -/
structure Start (p : LinearProgram Rat) (start : Tableau Rat) : Prop where
  canonical : start.Canonical
  columns_eq : start.columns = (layout p).real
  solves_iff : ∀ y, start.Solves y ↔
    (standardize p).Solves (Tableau.realPart (layout p).real y)

theorem columns_phaseOneRun (limit : Nat) (p : LinearProgram Rat) :
    (phaseOneRun limit p).tableau.columns = (layout p).total :=
  (reaches_run 0 limit 0 _).columns_eq

theorem vanishing_of_objective_le (h : p.WellFormed)
    (ho : (phaseOneRun limit p).tableau.objective ≤ 0) :
    (phaseOneRun limit p).tableau.Vanishing (layout p).real := by
  have hr := reaches_run 0 limit 0 ((standardize p).priceOut (phaseOneCosts (layout p)))
  have hcanonical := hr.canonical ((canonical_standardize h).priceOut _)
  have hcost := (hr.priced le_rfl ((canonical_standardize h).priceOut _).toSolved
    (priced_phaseOne h)).eval_solution hcanonical.toSolved
  rw [hr.columns_eq] at hcost
  have hzero := le_antisymm (hcost.trans_le ho)
    (eval_phaseOneCosts_nonneg (p := p) hcanonical.solution_nonneg)
  intro i hi hb
  have hlt := hcanonical.toShaped.basic_lt hi
  rw [hr.columns_eq] at hlt
  exact (hcanonical.toSolved.solution_basic hi).symm.trans
    (artificial_eq_zero hcanonical.solution_nonneg hzero hb hlt)

theorem start_of_phaseOne_feasible (h : p.WellFormed)
    (hf : phaseOne ⟨0, limit⟩ p = .feasible start pivots) : Start p start := by
  rw [phaseOne_eq] at hf
  split at hf
  · split at hf
    · simp at hf
    · simp at hf
    · split at hf
      · simp at hf
      · next ho =>
        obtain ⟨rfl, -⟩ := PhaseOne.feasible.inj hf
        have hr := reaches_run 0 limit 0 ((standardize p).priceOut (phaseOneCosts (layout p)))
        have hcanonical := hr.canonical ((canonical_standardize h).priceOut _)
        have hv := vanishing_of_objective_le h (not_lt.mp ho)
        have hreal : (layout p).real ≤ (phaseOneRun limit p).tableau.columns :=
          columns_phaseOneRun limit p ▸ layout_real_le p
        exact ⟨Tableau.canonical_expelArtificials hcanonical hv hreal, rfl, fun y =>
          (Tableau.solves_expelArtificials_iff hcanonical hv hreal).trans
            (hr.solves_iff le_rfl ((canonical_standardize h).priceOut _).toSolved)⟩
  · next hn =>
    -- Without artificial columns the standard form has real columns only.
    obtain ⟨rfl, -⟩ := PhaseOne.feasible.inj hf
    have he : (layout p).real = (layout p).total := (layout_real_le p).antisymm (not_lt.mp hn)
    refine ⟨canonical_standardize h, he.symm, fun y => ?_⟩
    have heval : ∀ row, eval (layout p).total row (Tableau.realPart (layout p).real y) =
        eval (layout p).total row y := fun row => by
      rw [Tableau.eval_realPart he.le, he]
    exact forall₂_congr fun row _ => by
      rw [show (standardize p).columns = (layout p).total from rfl, heval]

theorem Start.feasible_decisions (hs : Start p start) (h : p.WellFormed) (hy : ∀ j, 0 ≤ y j)
    (hsolves : start.Solves y) : p.Feasible (decisions p y) := by
  have hdecisions : decisions p y =
      decisions p (Tableau.realPart (layout p).real y) := by
    refine List.map_congr_left fun j hj => ?_
    have hlt := List.mem_range.mp hj
    have hreal : j < (layout p).real := by have := length_slacks p []; omega
    rw [Tableau.realPart, if_pos hreal]
  rw [hdecisions]
  refine Simplex.feasible_decisions h ((hs.solves_iff y).mp hsolves) (fun j => ?_) fun j hj => ?_
  · unfold Tableau.realPart
    split
    · exact hy j
    · exact le_rfl
  · rw [Tableau.realPart, if_neg (not_lt.mpr hj)]

theorem Start.solves_withSlacks (hs : Start p start) (h : p.WellFormed) (hx : p.Feasible x) :
    start.Solves (withSlacks p x) := by
  rw [hs.solves_iff, realPart_of_artificial fun j => withSlacks_artificial hx.length_eq]
  exact Simplex.solves_withSlacks h hx

end PhaseOne

section PhaseTwo

/-- What minimizing sees of an objective value. -/
def signed : Direction → Rat → Rat
  | .minimize, v => v
  | .maximize, v => -v

theorem better_iff {d : Direction} {v w : Rat} : d.Better v w ↔ signed d v < signed d w := by
  cases d <;> simp [Direction.Better, signed]

theorem signed_signed (d : Direction) (v : Rat) : signed d (signed d v) = v := by
  cases d <;> simp [signed]

theorem signed_dot (d : Direction) (row x : List Rat) :
    Scalar.dot (row.map (signed d)) x = signed d (Scalar.dot row x) := by
  cases d with
  | minimize => exact congrArg (Scalar.dot · x) (List.map_id row)
  | maximize => exact dot_neg row x

theorem phaseTwoCosts_eq (p : LinearProgram Rat) : phaseTwoCosts p (layout p) =
    p.objective.map (signed p.direction) ++
      List.replicate ((layout p).real - p.variableCount) 0 := by
  cases hd : p.direction <;> simp only [phaseTwoCosts, hd] <;> rfl

theorem length_phaseTwoCosts {α : Type} [Scalar α] (p : LinearProgram α) :
    (phaseTwoCosts p (layout p)).length = (layout p).real := by
  have hle : (layout p).structural ≤ (layout p).real := Nat.le_add_right _ _
  rw [phaseTwoCosts, List.length_append, List.length_map, List.length_replicate]
  exact Nat.add_sub_cancel' hle

theorem eval_phaseTwoCosts (hy : ∀ j < p.variableCount, y j = entry x j) :
    eval (layout p).real (phaseTwoCosts p (layout p)) y =
      signed p.direction (p.objectiveValue x) := by
  have hreal : p.variableCount ≤ (layout p).real := by have := length_slacks p []; omega
  have hlength : (p.objective.map (signed p.direction)).length = p.variableCount := by
    rw [List.length_map, LinearProgram.variableCount]
  rw [phaseTwoCosts_eq, LinearProgram.objectiveValue, ← signed_dot,
    dot_eq_eval _ _ hlength.le, eval, ← Finset.sum_subset (Finset.range_subset_range.mpr hreal)]
  · exact eval_congr fun j hj => by rw [hy j hj, entry_append_left (hlength ▸ hj)]
  · intro j _ hn
    obtain ⟨k, rfl⟩ : ∃ k, j = (p.objective.map (signed p.direction)).length + k :=
      ⟨j - p.variableCount, by have := Finset.mem_range.not.mp hn; omega⟩
    rw [entry_append_add, entry_replicate_zero, zero_mul]

theorem objective_eq_of_priced {u : Tableau Rat} (hu : u.Solved)
    (hcolumns : u.columns = (layout p).real) (hc : u.Priced (phaseTwoCosts p (layout p))) :
    u.objective = signed p.direction (p.objectiveValue (decisions p u.solution)) := by
  rw [← hc.eval_solution hu, hcolumns]
  exact eval_phaseTwoCosts fun j hj => (entry_decisions hj).symm

theorem Start.priced (hs : Start p start) :
    (start.priceOut (phaseTwoCosts p (layout p))).Priced (phaseTwoCosts p (layout p)) :=
  Tableau.priced_priceOut hs.canonical.toSolved
    ((length_phaseTwoCosts p).trans hs.columns_eq.symm)

end PhaseTwo

end LeastCost.Simplex
