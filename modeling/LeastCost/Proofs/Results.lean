import LeastCost.Failure

/-! # Results that may fail

What a step after a result leads to, if it leads to one, goes back to what the result was. Where
an engine starts with the check of its problem, its result is accepted without violations only.
-/

namespace LeastCost

section Steps

variable {ε β γ : Type}

theorem bind_eq_ok {result : Except ε β} {next : β → Except ε γ} {value : γ} :
    result >>= next = .ok value ↔ ∃ found, result = .ok found ∧ next found = .ok value := by
  cases result <;> simp [bind, Except.bind]

theorem map_eq_ok {result : Except ε β} {f : β → γ} {value : γ}
    (h : result.map f = .ok value) : ∃ found, result = .ok found ∧ f found = value := by
  cases result with
  | error fault => cases h
  | ok found => exact ⟨found, rfl, Except.ok.inj h⟩

theorem exists_ok_of_map {e : Except ε β} {f : β → γ} {v : γ}
    (h : e.toOption.map f = some v) : ∃ r, e = .ok r ∧ f r = v := by
  cases e with
  | error fault => cases h
  | ok r => exact ⟨r, rfl, Option.some.inj h⟩

end Steps

section Acceptance

variable {σ τ : Type} {violations : List Violation}

@[simp] theorem accept_cons {v : Violation} {e : Except EngineFault σ} :
    accept (v :: violations) e = .error (.invalidProblem (v :: violations)) := rfl

@[simp] theorem accept_nil_ok {s : σ} : accept [] (.ok s) = .ok s := rfl

@[simp] theorem accept_nil_error {fault : EngineFault} :
    (accept [] (.error fault) : Except Failure σ) = .error (.engine fault) := rfl

theorem accept_eq_ok_iff {e : Except EngineFault σ} {s : σ} :
    accept violations e = .ok s ↔ violations = [] ∧ e = .ok s := by
  cases violations <;> cases e <;> simp

theorem accept_map (violations : List Violation) (e : Except EngineFault σ) (f : σ → τ) :
    accept violations (e.map f) = (accept violations e).map f := by
  cases violations <;> cases e <;> rfl

end Acceptance

end LeastCost
