import LeastCost.Proofs.Simplex.Phases

/-! # Phases within a tolerance

A tolerance blurs which pivots are made and which rows count as redundant, but no pivot and no
dropped row loses a feasible point. Whatever the tolerance, the last tableau of phase two is solved
by the feasible points with their slacks, and its cost row says what they cost.
-/

namespace LeastCost.Simplex

namespace Tableau

variable {t u : Tableau Rat} {real i : Nat} {tolerance : Rat} {y : Nat → Rat}

/-- A solved tableau with the columns and the solutions of another one. -/
structure SolvedAs (t u : Tableau Rat) : Prop where
  solved : u.Solved
  columns_eq : u.columns = t.columns
  solves_iff : ∀ y, u.Solves y ↔ t.Solves y

theorem SolvedAs.refl (h : t.Solved) : SolvedAs t t := ⟨h, rfl, fun _ => Iff.rfl⟩

theorem Reaches.solvedAs (hr : t.Reaches tolerance u) (ht : 0 ≤ tolerance) (h : t.Solved) :
    SolvedAs t u :=
  ⟨hr.solved ht h, hr.columns_eq, fun _ => hr.solves_iff ht h⟩

theorem SolvedAs.expelRow (h : SolvedAs t u) (ht : 0 ≤ tolerance) (hreal : real ≤ t.columns) :
    SolvedAs t (u.expelRow real tolerance i) := by
  rcases expelRow_eq real tolerance u i with ⟨he, -⟩ | ⟨j, hj, ha, -, he⟩
  · rw [he]
    exact h
  · rw [he]
    have ha' : entry (u.row i) j ≠ 0 := abs_pos.mp (ht.trans_lt ha)
    have hj' : j < u.columns := h.columns_eq ▸ hj.trans_le hreal
    exact ⟨h.solved.pivot hj' ha', h.columns_eq,
      fun y => (solves_pivot_iff h.solved.toShaped hj' ha').trans (h.solves_iff y)⟩

theorem SolvedAs.foldl_expelRow (h : SolvedAs t u) (ht : 0 ≤ tolerance) (hreal : real ≤ t.columns)
    (indices : List Nat) : SolvedAs t (indices.foldl (Tableau.expelRow real tolerance) u) := by
  induction indices generalizing u with
  | nil => exact h
  | cons i indices ih => exact ih (h.expelRow ht hreal)

theorem Solved.expelArtificials (h : t.Solved) (ht : 0 ≤ tolerance) (hreal : real ≤ t.columns) :
    ((t.expelArtificials real tolerance).dropArtificialColumns real).Solved := by
  have hexpelled := (SolvedAs.refl h).foldl_expelRow ht hreal (List.range t.rows.length)
  exact hexpelled.solved.drop (hexpelled.columns_eq ▸ hreal)

/-- Expelling loses no solution without artificial parts, also where it drops rows that are
redundant only up to the tolerance. -/
theorem Solves.expelArtificials (h : t.Solved) (ht : 0 ≤ tolerance) (hreal : real ≤ t.columns)
    (hs : t.Solves (realPart real y)) :
    ((t.expelArtificials real tolerance).dropArtificialColumns real).Solves y := by
  have hexpelled := (SolvedAs.refl h).foldl_expelRow ht hreal (List.range t.rows.length)
  exact Solves.drop hexpelled.solved.toShaped (hexpelled.columns_eq ▸ hreal)
    ((hexpelled.solves_iff _).mpr hs)

theorem Solved.priceOut (h : t.Solved) (c : List Rat) : (t.priceOut c).Solved where
  row_length := h.row_length
  basis_length := h.basis_length
  basis_lt := h.basis_lt
  unit := h.unit

end Tableau

open Tableau

variable {p : LinearProgram Rat} {s : Settings Rat} {start u : Tableau Rat} {pivots : Nat}
  {x : List Rat}

/-- A solved tableau of the real columns that every feasible point solves with its slacks. -/
structure Admits (p : LinearProgram Rat) (u : Tableau Rat) : Prop where
  solved : u.Solved
  columns_eq : u.columns = (layout p).real
  solves : ∀ x, p.Feasible x → u.Solves (withSlacks p x)

theorem admits_of_phaseOne_feasible (ht : 0 ≤ s.tolerance) (h : p.WellFormed)
    (hf : phaseOne s p = .feasible start pivots) : Admits p start := by
  have hstart := (canonical_standardize h).toSolved
  simp only [phaseOne] at hf
  split at hf
  · split at hf
    · cases hf
    · cases hf
    · split at hf
      · cases hf
      · obtain ⟨rfl, -⟩ := PhaseOne.feasible.inj hf
        have hr := (reaches_run s.tolerance s.maxIterations 0 _).solvedAs ht
          (hstart.priceOut (phaseOneCosts (layout p)))
        have hreal := (layout_real_le p).trans_eq hr.columns_eq.symm
        refine ⟨hr.solved.expelArtificials ht hreal, rfl, fun x hx => ?_⟩
        apply Solves.expelArtificials hr.solved ht hreal
        rw [realPart_of_artificial fun j => withSlacks_artificial hx.length_eq]
        exact (hr.solves_iff _).mpr (solves_withSlacks h hx)
  · next hn =>
    obtain ⟨rfl, -⟩ := PhaseOne.feasible.inj hf
    exact ⟨hstart, (not_lt.mp hn).antisymm (layout_real_le p), fun x hx => solves_withSlacks h hx⟩

/-- A tableau that admits the feasible points, with a cost row that says what they cost. -/
structure Values (p : LinearProgram Rat) (u : Tableau Rat) : Prop extends Admits p u where
  priced : u.Priced (phaseTwoCosts p (layout p))

theorem Admits.values (h : Admits p start) :
    Values p (start.priceOut (phaseTwoCosts p (layout p))) where
  solved := h.solved.priceOut _
  columns_eq := h.columns_eq
  solves := h.solves
  priced := priced_priceOut h.solved ((length_phaseTwoCosts p).trans h.columns_eq.symm)

theorem Values.reaches {t : Tableau Rat} (h : Values p t) {tolerance : Rat} (ht : 0 ≤ tolerance)
    (hr : t.Reaches tolerance u) : Values p u where
  solved := hr.solved ht h.solved
  columns_eq := hr.columns_eq.trans h.columns_eq
  solves x hx := (hr.solves_iff ht h.solved).mpr (h.solves x hx)
  priced := hr.priced ht h.solved h.priced

theorem values_of_phaseOne_feasible (ht : 0 ≤ s.tolerance) (h : p.WellFormed)
    (hf : phaseOne s p = .feasible start pivots) :
    Values p (phaseTwo s p start pivots).tableau :=
  (admits_of_phaseOne_feasible ht h hf).values.reaches ht (reaches_run _ _ _ _)

theorem Values.cost_eq (h : Values p u) (hx : p.Feasible x) :
    signed p.direction (p.objectiveValue x) =
      u.objective + eval (layout p).real u.costs (withSlacks p x) := by
  have hcost := h.priced.value _ (h.solves x hx)
  rw [h.columns_eq] at hcost
  rw [← hcost]
  exact (eval_phaseTwoCosts fun j hj => withSlacks_decision hx.length_eq hj).symm

end LeastCost.Simplex
