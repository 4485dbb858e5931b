import LeastCost.Failure
import LeastCost.Problem.Outcome

/-! # Runs cut short

A run under a cap on its steps is one family of results, with a result for each cap. A cap that
only cuts the run short leaves two cases: every cap is too small, or there is a number of steps
below which every cap is too small and from which on the result stays the same.
-/

namespace LeastCost

variable {ρ ρ' : Type} {Cut Final : Nat → ρ → Prop} {Cut' Final' : Nat → ρ' → Prop}
  {result : Nat → ρ} {result' : Nat → ρ'} {done n : Nat}

/-- With `done` steps made before, the results under further steps are cut short at the cap, or
final at some number of steps and the same from there on. -/
def CutShort (Cut Final : Nat → ρ → Prop) (done : Nat) (result : Nat → ρ) : Prop :=
  (∀ cap, Cut (done + cap) (result cap)) ∨
    ∃ n final, Final (done + n) final ∧ (∀ cap < n, Cut (done + cap) (result cap)) ∧
      ∀ cap, n ≤ cap → result cap = final

namespace CutShort

theorem const (final : ρ) (h : Final done final) (he : ∀ cap, result cap = final) :
    CutShort Cut Final done result :=
  Or.inr ⟨0, final, h, fun _ hcap => absurd hcap (Nat.not_lt_zero _), fun cap _ => he cap⟩

theorem extend (hcut : ∀ cap < n, Cut (done + cap) (result cap))
    (h : CutShort Cut Final (done + n) fun cap => result (n + cap)) :
    CutShort Cut Final done result := by
  have hbelow : ∀ {k}, (∀ cap < k, Cut (done + n + cap) (result (n + cap))) →
      ∀ cap < n + k, Cut (done + cap) (result cap) := by
    intro k hk cap hcap
    rcases Nat.lt_or_ge cap n with hlt | hge
    · exact hcut cap hlt
    · obtain ⟨c, rfl⟩ := Nat.exists_eq_add_of_le hge
      rw [← Nat.add_assoc]
      exact hk c (by omega)
  rcases h with hall | ⟨k, final, hfinal, hk, hsame⟩
  · exact Or.inl fun cap => hbelow (k := cap + 1) (fun c _ => hall c) cap (by omega)
  · refine Or.inr ⟨n + k, final, Nat.add_assoc .. ▸ hfinal, hbelow hk, fun cap hcap => ?_⟩
    obtain ⟨c, rfl⟩ := Nat.exists_eq_add_of_le (Nat.le_of_add_right_le hcap)
    exact hsame c (by omega)

/-- Results are cut short where they are final at once, or cut short without a further step and
after one step again such results. -/
theorem of_steps (Steps : Nat → (Nat → ρ) → Prop)
    (h : ∀ done result, Steps done result → (∃ final, Final done final ∧
      ∀ cap, result cap = final) ∨
      (Cut done (result 0) ∧ Steps (done + 1) fun cap => result (cap + 1)))
    (hs : Steps done result) : CutShort Cut Final done result := by
  by_cases hall : ∀ cap, Cut (done + cap) (result cap)
  · exact Or.inl hall
  · obtain ⟨cap, hcap⟩ := Classical.not_forall.mp hall
    clear hall
    induction cap generalizing done result with
    | zero =>
      rcases h done result hs with ⟨final, hfinal, he⟩ | ⟨hcut, -⟩
      · exact const final hfinal he
      · exact absurd hcut hcap
    | succ cap ih =>
      rcases h done result hs with ⟨final, hfinal, he⟩ | ⟨hcut, hs'⟩
      · exact const final hfinal he
      · refine extend (n := 1) (fun c hc => ?_) ?_
        · obtain rfl : c = 0 := by omega
          exact hcut
        · have htail : (fun c => result (1 + c)) = fun c => result (c + 1) :=
            funext fun c => congrArg result (Nat.add_comm 1 c)
          rw [htail]
          exact ih hs' (by rwa [Nat.add_assoc, Nat.add_comm 1 cap])

theorem map (h : CutShort Cut Final done result) (make : Nat → ρ → ρ')
    (hmake : ∀ cap, result' cap = make (done + cap) (result cap))
    (hcut : ∀ cap r, Cut cap r → Cut' cap (make cap r))
    (hfinal : ∀ n r, Final n r → ∃ r', Final' n r' ∧ ∀ cap, make cap r = r') :
    CutShort Cut' Final' done result' := by
  rcases h with hall | ⟨n, final, hf, hbelow, hsame⟩
  · exact Or.inl fun cap => hmake cap ▸ hcut _ _ (hall cap)
  · obtain ⟨final', hf', hmade⟩ := hfinal _ _ hf
    refine Or.inr ⟨n, final', hf', fun cap hcap => hmake cap ▸ hcut _ _ (hbelow cap hcap), ?_⟩
    intro cap hcap
    rw [hmake, hsame cap hcap, hmade]

end CutShort

/-- The cap of a solver only cuts its runs short. A result that is not cut short stays the same
under every greater cap, and so does a failure. A result that is cut short has made as many
steps as the cap allows and is empty. A result that is not comes under every cap from its own
number of steps on, and no smaller cap lets the run end. -/
structure CapOnlyCuts {σ : Type} (solve : Nat → Except Failure σ) (status : σ → Status)
    (steps : σ → Nat) (Empty : σ → Prop) : Prop where
  same : ∀ {cap cap'}, cap ≤ cap' →
    (∀ r, solve cap = .ok r → status r ≠ .iterationLimit) → solve cap' = solve cap
  cut : ∀ {cap r}, solve cap = .ok r → status r = .iterationLimit → steps r = cap ∧ Empty r
  below : ∀ {cap cap' r}, solve cap' = .ok r → status r ≠ .iterationLimit → cap < steps r →
    ∃ r', solve cap = .ok r' ∧ status r' = .iterationLimit
  above : ∀ {cap cap' r}, solve cap' = .ok r → status r ≠ .iterationLimit → steps r ≤ cap →
    solve cap = .ok r

section Solvers

variable {σ : Type} {solve : Nat → Except Failure σ} {status : σ → Status} {steps : σ → Nat}
  {Empty : σ → Prop} {ε : Type}

def CutResult (status : σ → Status) (steps : σ → Nat) (Empty : σ → Prop) (cap : Nat)
    (e : Except ε σ) : Prop :=
  ∃ r, e = .ok r ∧ status r = .iterationLimit ∧ steps r = cap ∧ Empty r

def FinalResult (status : σ → Status) (steps : σ → Nat) (n : Nat) (e : Except ε σ) : Prop :=
  ∀ r, e = .ok r → status r ≠ .iterationLimit ∧ steps r = n

theorem FinalResult.error {fault : ε} {n : Nat} :
    FinalResult status steps n (.error fault : Except ε σ) := by
  intro r hr
  cases hr

theorem CutShort.capOnlyCuts
    (h : CutShort (CutResult status steps Empty) (FinalResult status steps) 0 solve) :
    CapOnlyCuts solve status steps Empty := by
  simp only [CutShort, Nat.zero_add] at h
  rcases h with hall | ⟨n, final, hfinal, hbelow, hsame⟩
  · -- Every result is cut short, so only the clause on these says something.
    have hlimit : ∀ {cap r}, solve cap = .ok r → status r = .iterationLimit := by
      intro cap r hr
      obtain ⟨r', hr', hstatus, -⟩ := hall cap
      obtain rfl := Except.ok.inj (hr.symm.trans hr')
      exact hstatus
    refine ⟨fun {cap _} _ hr => ?_, fun {cap r} hr _ => ?_, fun hr hne => absurd (hlimit hr) hne,
      fun hr hne => absurd (hlimit hr) hne⟩
    · obtain ⟨r, hcap, hstatus, -⟩ := hall cap
      exact absurd hstatus (hr r hcap)
    · obtain ⟨r', hr', -, hcap, hempty⟩ := hall cap
      obtain rfl := Except.ok.inj (hr.symm.trans hr')
      exact ⟨hcap, hempty⟩
  · have hend : ∀ {cap r}, solve cap = .ok r → status r ≠ .iterationLimit →
        final = .ok r ∧ steps r = n := by
      intro cap r hr hne
      rcases Nat.lt_or_ge cap n with hlt | hge
      · obtain ⟨r', hr', hstatus, -⟩ := hbelow cap hlt
        obtain rfl := Except.ok.inj (hr.symm.trans hr')
        exact absurd hstatus hne
      · have he := (hsame cap hge).symm.trans hr
        exact ⟨he, (hfinal r he).2⟩
    refine ⟨fun {cap cap'} hle hr => ?_, fun {cap r} hr hstatus => ?_,
      fun {cap cap' r} hr hne hlt => ?_, fun {cap cap' r} hr hne hle => ?_⟩
    · rcases Nat.lt_or_ge cap n with hlt | hge
      · obtain ⟨r, hcap, hstatus, -⟩ := hbelow cap hlt
        exact absurd hstatus (hr r hcap)
      · rw [hsame cap hge, hsame cap' (Nat.le_trans hge hle)]
    · rcases Nat.lt_or_ge cap n with hlt | hge
      · obtain ⟨r', hr', -, hcap, hempty⟩ := hbelow cap hlt
        obtain rfl := Except.ok.inj (hr.symm.trans hr')
        exact ⟨hcap, hempty⟩
      · exact absurd hstatus (hfinal r ((hsame cap hge).symm.trans hr)).1
    · obtain ⟨-, hsteps⟩ := hend hr hne
      obtain ⟨r', hr', hstatus, -⟩ := hbelow cap (hsteps ▸ hlt)
      exact ⟨r', hr', hstatus⟩
    · obtain ⟨he, hsteps⟩ := hend hr hne
      rw [hsame cap (hsteps ▸ hle), he]

/-- Validation comes before the run and knows no cap. -/
theorem CutShort.accept {violations : List Violation} {run : Nat → Except EngineFault σ}
    (h : CutShort (CutResult status steps Empty) (FinalResult status steps) 0 run) :
    CutShort (CutResult status steps Empty) (FinalResult status steps) 0
      fun cap => accept violations (run cap) := by
  cases violations with
  | cons v violations => exact const _ FinalResult.error fun _ => rfl
  | nil =>
    refine h.map (fun _ e => LeastCost.accept [] e) (fun _ => rfl) ?_ ?_
    · rintro cap _ ⟨r, rfl, hr⟩
      exact ⟨r, rfl, hr⟩
    · intro n e he
      refine ⟨LeastCost.accept [] e, fun r hr => he r ?_, fun _ => rfl⟩
      cases e with
      | ok s => exact congrArg Except.ok (Except.ok.inj hr)
      | error fault => cases hr

end Solvers

end LeastCost
