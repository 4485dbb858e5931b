import LeastCost.Proofs.Simplex.Truncation
import LeastCost.Proofs.Transport.Truncation

/-! # Caps on the steps of the engines

Both iterative engines test their cap between choosing a step and making it. So a cap decides
when a run stops, and nothing else about the run.
-/

namespace LeastCost.Engines

/-- The caps of both iterative engines only cut their runs short, whatever the scalars and the
tolerance are. -/
theorem caps_only_cut {α : Type} [Scalar α] (tolerance : α) :
    (∀ p : LinearProgram α,
      CapOnlyCuts (fun cap => Simplex.solve ⟨tolerance, cap⟩ p) LinearProgram.Solution.status
        Simplex.steps Simplex.IsVacant) ∧
    ∀ p : Transportation.Problem α,
      CapOnlyCuts (fun cap => Transport.solve ⟨tolerance, cap⟩ p) Transportation.Plan.status
        Transport.steps Transport.IsVacant :=
  ⟨Simplex.solve_capOnlyCuts tolerance, Transport.solve_capOnlyCuts tolerance⟩

/-- Two products that share two resources: one pivot for each of them. -/
def mixing : LinearProgram Float :=
  { direction := .maximize
    objective := [3, 2]
    constraints := [[1, 1], [1, 0]]
    signs := [.lessEqual, .lessEqual]
    rhs := [4, 2] }

def freight : Transportation.Problem Float :=
  { supply := [5, 3, 4]
    demand := [6, 2, 7]
    costs := [[2, 2, 1], [1, 3, 2], [3, 2, 3]] }

theorem freight_planned : ∃ r, Transport.solve ⟨0, 2⟩ freight = .ok r ∧
    (r.status, Transport.steps r) = (.optimal, 2) := by
  apply exists_ok_of_map
  rw [Transport.solve, Transport.plan_eq, Transport.optimizeNetwork, Transport.initialBasis,
    Transport.Basis.complete_of_size_ge _ (by decide +kernel)]
  decide +kernel

/-- Two pivots prove the optimum of `mixing`, and two improvements that of `freight`. So every cap
from two on gives the same outcome, and no smaller cap gives one. -/
theorem mixing_freight_capped :
    (∃ s, s.status = .optimal ∧ (∀ cap, 2 ≤ cap → Simplex.solve ⟨0, cap⟩ mixing = .ok s) ∧
      ∀ cap < 2, ∃ s', Simplex.solve ⟨0, cap⟩ mixing = .ok s' ∧ s'.status = .iterationLimit) ∧
    ∃ r, r.status = .optimal ∧ (∀ cap, 2 ≤ cap → Transport.solve ⟨0, cap⟩ freight = .ok r) ∧
      ∀ cap < 2, ∃ r', Transport.solve ⟨0, cap⟩ freight = .ok r' ∧
        r'.status = .iterationLimit := by
  have hrun : ∃ s, Simplex.solve ⟨0, 2⟩ mixing = .ok s ∧
      (s.status, Simplex.steps s) = (.optimal, 2) := by
    apply exists_ok_of_map
    decide +kernel
  obtain ⟨hsimplex, htransport⟩ := caps_only_cut (0 : Float)
  constructor
  · obtain ⟨s, hs, he⟩ := hrun
    obtain ⟨hoptimal, hsteps⟩ := Prod.mk.inj he
    refine ⟨s, hoptimal, fun cap hcap => (hsimplex mixing).above hs ?_ (hsteps ▸ hcap),
      fun cap hcap => (hsimplex mixing).below hs ?_ (hsteps ▸ hcap)⟩ <;> simp [hoptimal]
  · obtain ⟨r, hr, he⟩ := freight_planned
    obtain ⟨hoptimal, hsteps⟩ := Prod.mk.inj he
    refine ⟨r, hoptimal, fun cap hcap => (htransport freight).above hr ?_ (hsteps ▸ hcap),
      fun cap hcap => (htransport freight).below hr ?_ (hsteps ▸ hcap)⟩ <;> simp [hoptimal]

end LeastCost.Engines
