import LeastCost.Proofs.Truncation
import LeastCost.Simplex.Solve

/-! # Pivots under a cap

Nothing is assumed of the scalars. Both phases of the simplex method count their pivots with one
counter, and test it only when there is a pivot to make. So the cap on the pivots only cuts the
run short, in whichever phase it is reached.
-/

namespace LeastCost.Simplex

open LinearProgram (Solution)

variable {α : Type} [Scalar α] {tolerance : α} {pivots : Nat}

section Phases

/-- The run ended for want of budget after this many pivots. -/
def Run.IsCut (cap : Nat) (r : Run α) : Prop := r.verdict = .iterationLimit ∧ r.pivots = cap

def Run.IsFinal (n : Nat) (r : Run α) : Prop := r.verdict ≠ .iterationLimit ∧ r.pivots = n

theorem run_cutShort (tolerance : α) (pivots : Nat) (t : Tableau α) :
    CutShort Run.IsCut Run.IsFinal pivots fun budget => run tolerance budget pivots t := by
  refine CutShort.of_steps
    (fun pivots result => ∃ t, result = fun budget => run tolerance budget pivots t) ?_ ⟨t, rfl⟩
  rintro pivots _ ⟨t, rfl⟩
  cases hn : t.next tolerance with
  | optimal =>
    refine Or.inl ⟨⟨.optimal, t, pivots⟩, ⟨by simp, rfl⟩, fun budget => ?_⟩
    unfold run
    rw [hn]
  | unbounded =>
    refine Or.inl ⟨⟨.unbounded, t, pivots⟩, ⟨by simp, rfl⟩, fun budget => ?_⟩
    unfold run
    rw [hn]
  | pivot row column =>
    refine Or.inr ⟨?_, t.pivot row column, funext fun budget => ?_⟩
    · unfold run
      rw [hn]
      exact ⟨rfl, rfl⟩
    · change run tolerance (budget + 1) pivots t = _
      conv => lhs; unfold run
      rw [hn]

/-- The outcome that phase two ends with. -/
def conclude (s : Settings α) (p : LinearProgram α) (pivots : Nat) (r : Run α) : Solution α :=
  { (match r.verdict with
      | .optimal => optimum s p r.tableau
      | .unbounded => unbounded
      | .iterationLimit => limitReached s.maxIterations : Solution α) with
    statistics := ⟨r.pivots, pivots, p.rowCount, (layout p).total⟩ }

/-- What becomes of the tableau that phase one ends with. -/
def settle (tolerance : α) (p : LinearProgram α) (r : Run α) : PhaseOne α :=
  match r.verdict with
  | .iterationLimit => .iterationLimit r.pivots
  | .unbounded => .unbounded
  | .optimal =>
    if tolerance * feasibilityScale p < r.tableau.objective then .infeasible r.pivots
    else
      .feasible
        ((r.tableau.expelArtificials (layout p).real tolerance).dropArtificialColumns
          (layout p).real)
        r.pivots

theorem phaseOne_of_artificial {s : Settings α} {p : LinearProgram α}
    (h : (layout p).real < (layout p).total) : phaseOne s p =
      settle s.tolerance p
        (run s.tolerance s.maxIterations 0
          ((standardize p).priceOut (phaseOneCosts (layout p)))) := by
  unfold phaseOne
  exact if_pos h

theorem settle_of_final (tolerance : α) (p : LinearProgram α) {n : Nat} {r : Run α}
    (h : r.IsFinal n) :
    settle tolerance p r = .unbounded ∨ settle tolerance p r = .infeasible n ∨
      ∃ start, settle tolerance p r = .feasible start n := by
  unfold settle
  split
  · next hv => exact absurd hv h.1
  · exact Or.inl rfl
  · rw [h.2]
    split
    · exact Or.inr (Or.inl rfl)
    · exact Or.inr (Or.inr ⟨_, rfl⟩)

theorem optimize_of_feasible {s : Settings α} {p : LinearProgram α} {start : Tableau α}
    (h : phaseOne s p = .feasible start pivots) :
    optimize s p = .ok (conclude s p pivots (phaseTwo s p start pivots)) := by
  simp only [optimize, h]
  rfl

end Phases

section Caps

variable {p : LinearProgram α}

def IsVacant (s : Solution α) : Prop := s.value = none ∧ s.point = [] ∧ s.slack = []

def steps (s : Solution α) : Nat := s.statistics.iterations

theorem conclude_cut {cap : Nat} {r : Run α} (h : r.IsCut cap) :
    CutResult (ε := EngineFault) Solution.status steps IsVacant cap
      (.ok (conclude ⟨tolerance, cap⟩ p pivots r)) := by
  refine ⟨_, rfl, ?_, h.2, ?_⟩ <;> simp only [conclude, h.1]
  · rfl
  · exact ⟨rfl, rfl, rfl⟩

theorem conclude_final {n : Nat} {r : Run α} (h : r.IsFinal n) :
    ∃ e : Except EngineFault (Solution α), FinalResult Solution.status steps n e ∧
      ∀ cap, .ok (conclude ⟨tolerance, cap⟩ p pivots r) = e := by
  cases hv : r.verdict with
  | optimal =>
    refine ⟨.ok (conclude ⟨tolerance, 0⟩ p pivots r), ?_, fun cap => ?_⟩
    · intro s hs
      obtain rfl := Except.ok.inj hs
      exact ⟨by simp [conclude, hv, optimum, Solution.optimum], h.2⟩
    · simp only [conclude, hv]
      rfl
  | unbounded =>
    refine ⟨.ok (conclude ⟨tolerance, 0⟩ p pivots r), ?_, fun cap => ?_⟩
    · intro s hs
      obtain rfl := Except.ok.inj hs
      exact ⟨by simp [conclude, hv, unbounded], h.2⟩
    · simp only [conclude, hv]
  | iterationLimit => exact absurd hv h.1

theorem phaseTwo_cutShort (tolerance : α) (p : LinearProgram α) (start : Tableau α)
    (pivots : Nat) :
    CutShort (CutResult Solution.status steps IsVacant) (FinalResult Solution.status steps) pivots
      fun cap => (.ok (conclude ⟨tolerance, pivots + cap⟩ p pivots
        (phaseTwo ⟨tolerance, pivots + cap⟩ p start pivots)) : Except EngineFault _) := by
  refine (run_cutShort tolerance pivots (start.priceOut (phaseTwoCosts p (layout p)))).map
    (fun cap r => .ok (conclude ⟨tolerance, cap⟩ p pivots r)) (fun cap => ?_)
    (fun cap r => conclude_cut) (fun n r => conclude_final)
  simp only [phaseTwo, Nat.add_sub_cancel_left]

/-- From the end of phase one on, either the outcome is known or phase two goes on. -/
theorem settled_cutShort {n : Nat} {r : Run α} (h : r.IsFinal n)
    (hsettled : ∀ cap, phaseOne ⟨tolerance, n + cap⟩ p = settle tolerance p r) :
    CutShort (CutResult Solution.status steps IsVacant) (FinalResult Solution.status steps) n
      fun cap => optimize ⟨tolerance, n + cap⟩ p := by
  rcases settle_of_final tolerance p h with hs | hs | ⟨start, hs⟩
  · refine CutShort.const (.error .phaseOneUnbounded) FinalResult.error fun cap => ?_
    simp only [optimize, hsettled, hs]
  · refine CutShort.const
      (.ok { infeasible with
        statistics := ⟨n, n, p.rowCount, (layout p).total⟩ }) ?_ fun cap => ?_
    · intro s hs
      obtain rfl := Except.ok.inj hs
      exact ⟨by simp [infeasible], rfl⟩
    · simp only [optimize, hsettled, hs]
  · have hgo : (fun cap => optimize ⟨tolerance, n + cap⟩ p) = fun cap =>
        .ok (conclude ⟨tolerance, n + cap⟩ p n
          (phaseTwo ⟨tolerance, n + cap⟩ p start n)) :=
      funext fun cap => optimize_of_feasible ((hsettled cap).trans hs)
    rw [hgo]
    exact phaseTwo_cutShort tolerance p start n

theorem optimize_cutShort (tolerance : α) (p : LinearProgram α) :
    CutShort (CutResult Solution.status steps IsVacant) (FinalResult Solution.status steps) 0
      fun cap => optimize ⟨tolerance, cap⟩ p := by
  by_cases h : (layout p).real < (layout p).total
  · have hone : ∀ cap, phaseOne ⟨tolerance, cap⟩ p = settle tolerance p
        (run tolerance cap 0 ((standardize p).priceOut (phaseOneCosts (layout p)))) :=
      fun cap => phaseOne_of_artificial h
    have hcut : ∀ cap, (run tolerance cap 0
        ((standardize p).priceOut (phaseOneCosts (layout p)))).IsCut (0 + cap) →
        CutResult Solution.status steps IsVacant (0 + cap) (optimize ⟨tolerance, cap⟩ p) := by
      intro cap hr
      rw [Nat.zero_add] at hr ⊢
      simp only [optimize, hone, settle, hr.1, limitReached]
      exact ⟨_, rfl, rfl, hr.2, rfl, rfl, rfl⟩
    rcases run_cutShort tolerance 0 ((standardize p).priceOut (phaseOneCosts (layout p))) with
      hall | ⟨n, r, hfinal, hbelow, hsame⟩
    · exact Or.inl fun cap => hcut cap (hall cap)
    · rw [Nat.zero_add] at hfinal
      refine CutShort.extend (n := n) (fun cap hcap => hcut cap (hbelow cap hcap)) ?_
      rw [Nat.zero_add]
      apply settled_cutShort hfinal
      intro cap
      exact (hone _).trans (congrArg (settle tolerance p) (hsame _ (Nat.le_add_right n cap)))
  · have hgo : (fun cap => optimize ⟨tolerance, cap⟩ p) = fun cap =>
        .ok (conclude ⟨tolerance, 0 + cap⟩ p 0
          (phaseTwo ⟨tolerance, 0 + cap⟩ p (standardize p) 0)) := by
      funext cap
      rw [Nat.zero_add]
      exact optimize_of_feasible (by simp only [phaseOne, if_neg h])
    rw [hgo]
    exact phaseTwo_cutShort tolerance p (standardize p) 0

theorem solve_capOnlyCuts (tolerance : α) (p : LinearProgram α) :
    CapOnlyCuts (fun cap => solve ⟨tolerance, cap⟩ p) Solution.status steps IsVacant :=
  (optimize_cutShort tolerance p).accept.capOnlyCuts

end Caps

end LeastCost.Simplex
