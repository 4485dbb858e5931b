import LeastCost.Proofs.Transport.Totality
import LeastCost.Proofs.Truncation

/-! # Improvement steps under a cap

Nothing is assumed of the scalars. The cap is tested after a cell to enter was found and before
its loop is closed. So it only cuts the improvement short: with the same network and the same
first plan, the steps under a greater cap begin with the steps under a smaller one.
-/

namespace LeastCost.Transport

open Transportation (Plan Problem)

variable {α : Type} {m n : Nat}

def Improved.IsCut (cap : Nat) (e : Except EngineFault (Improved α m n)) : Prop :=
  ∃ r, e = .ok r ∧ r.isOptimal = false ∧ r.steps = cap

def Improved.IsFinal (k : Nat) (e : Except EngineFault (Improved α m n)) : Prop :=
  ∀ r, e = .ok r → r.isOptimal = true ∧ r.steps = k

theorem Improved.IsFinal.error {fault : EngineFault} {k : Nat} :
    Improved.IsFinal k (.error fault : Except EngineFault (Improved α m n)) := by
  intro r hr
  cases hr

variable [Scalar α]

/-- The results of improving one plan under every budget, or one fault under all of them. -/
inductive Improvement (net : Network α m n) (tolerance threshold : α) :
    Nat → (Nat → Except EngineFault (Improved α m n)) → Prop where
  | plan (steps : Nat) (b : Basis α m n) : Improvement net tolerance threshold steps
      fun budget => improve net tolerance threshold budget steps b
  | fault (steps : Nat) (fault : EngineFault) : Improvement net tolerance threshold steps
      fun _ => .error fault

theorem improve_cutShort (net : Network α m n) (tolerance threshold : α) (b : Basis α m n) :
    CutShort Improved.IsCut Improved.IsFinal 0
      fun budget => improve net tolerance threshold budget 0 b := by
  apply CutShort.of_steps (Improvement net tolerance threshold) _ (.plan 0 b)
  intro steps result h
  cases h with
  | fault fault => exact Or.inl ⟨.error fault, .error, fun _ => rfl⟩
  | plan b =>
    cases hq : b.potentials? net with
    | none => exact Or.inl ⟨.error .basisNotSpanning, .error,
        fun _ => improve_of_potentials_eq_none hq⟩
    | some q =>
      cases hc : b.enteringCell net threshold q with
      | none =>
        refine Or.inl ⟨.ok ⟨true, b, steps⟩, fun r hr => ?_,
          fun _ => improve_of_enteringCell_eq_none hq hc⟩
        obtain rfl := Except.ok.inj hr
        exact ⟨rfl, rfl⟩
      | some entering =>
        refine Or.inr ⟨⟨⟨false, b, steps⟩, improve_zero hq hc, rfl, rfl⟩, ?_⟩
        -- The step is made, or it fails for want of a loop, whatever budget is left after it.
        cases hpath : b.path? entering with
        | none =>
          have hfault : (fun budget => improve net tolerance threshold (budget + 1) steps b) =
              fun _ => .error (.noClosedLoop entering.1 entering.2) :=
            funext fun _ => improve_of_path_eq_none hq hc hpath
          exact hfault ▸ .fault _ _
        | some path =>
          have hstep : (fun budget => improve net tolerance threshold (budget + 1) steps b) =
              fun budget => improve net tolerance threshold budget (steps + 1)
                (b.shiftAlongLoop tolerance entering path).2 :=
            funext fun _ => improve_succ hq hc hpath
          exact hstep ▸ .plan _ _

def IsVacant (r : Plan α) : Prop := r.flows = [] ∧ r.totalCost = 0

def steps (r : Plan α) : Nat := r.statistics.iterations

theorem plan_cutShort (tolerance : α) (p : Problem α) :
    CutShort (CutResult Plan.status steps IsVacant) (FinalResult Plan.status steps) 0
      fun cap => plan ⟨tolerance, cap⟩ p := by
  refine (improve_cutShort (balanced tolerance p).network tolerance
    (tolerance * (1 + (balanced tolerance p).network.maxAbsCost))
    (initialBasis (balanced tolerance p).network tolerance)).map
    (fun cap e => e.map (planOf ⟨tolerance, cap⟩ p (Balance.ofProblem tolerance p)))
    (fun cap => ?_) ?_ ?_
  · rw [plan_eq, optimizeNetwork, Nat.zero_add]
  · rintro cap _ ⟨r, rfl, hr, hsteps⟩
    exact ⟨_, rfl, by simp [planOf, hr], by simp [planOf, hr, hsteps, steps],
      by simp [planOf, hr, IsVacant]⟩
  · intro k e he
    cases e with
    | error fault => exact ⟨.error fault, .error, fun _ => rfl⟩
    | ok r =>
      obtain ⟨hoptimal, hsteps⟩ := he r rfl
      refine ⟨.ok (planOf ⟨tolerance, 0⟩ p (Balance.ofProblem tolerance p) r), fun r' hr' => ?_,
        fun cap => ?_⟩
      · obtain rfl := Except.ok.inj hr'
        simp [planOf, hoptimal, hsteps, steps]
      · simp [Except.map, planOf, hoptimal]

theorem solve_capOnlyCuts (tolerance : α) (p : Problem α) :
    CapOnlyCuts (fun cap => solve ⟨tolerance, cap⟩ p) Plan.status steps IsVacant :=
  (plan_cutShort tolerance p).accept.capOnlyCuts

end LeastCost.Transport
