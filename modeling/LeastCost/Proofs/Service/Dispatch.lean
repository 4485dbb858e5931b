import LeastCost.Config.Server
import LeastCost.Proofs.Problem.WellFormed
import LeastCost.Proofs.Transport.Totality
import LeastCost.Proofs.Wire.Responses
import LeastCost.Service.Dispatch

/-!
# Replies that can be read

The text of a reply decodes exactly if the numbers of the response that must not be null are
finite. An assignment is only reported with a finite total cost. The other engines report what
they computed, so a total or a value that overflows is sent as null.
-/

namespace LeastCost

section Outcomes

variable {α : Type} [Scalar α] {n : Nat}

theorem Hungarian.isFinite_of_assign {tolerance : α} {costs : Grid α n n}
    {s : Assignment.Solution α} (h : assign tolerance costs = .ok s) :
    Scalar.isFinite s.totalCost = true := by
  simp only [assign, bind, Except.bind, pure, Except.pure] at h
  split at h
  · cases h
  · split at h
    · cases h
    · split at h
      · next hfinite =>
        obtain rfl := Except.ok.inj h
        exact hfinite
      · cases h

/-- Only an optimum has a value and a point. -/
theorem Simplex.outcome_of_optimize {s : Settings α} {p : LinearProgram α}
    {o : LinearProgram.Solution α} (h : optimize s p = .ok o) :
    (o.status = .optimal ∧ ∃ v, o.value = some v) ∨
      (o.status ≠ .optimal ∧ o.value = none ∧ o.point = []) := by
  simp only [optimize] at h
  cases hone : phaseOne s p with
  | unbounded => simp [hone] at h
  | iterationLimit pivots =>
    simp only [hone, Except.ok.injEq] at h
    exact Or.inr (by simp [← h, limitReached])
  | infeasible pivots =>
    simp only [hone, Except.ok.injEq] at h
    exact Or.inr (by simp [← h, infeasible])
  | feasible start pivots =>
    simp only [hone, Except.ok.injEq] at h
    subst h
    cases hv : (phaseTwo s p start pivots).verdict with
    | unbounded => exact Or.inr (by simp [unbounded])
    | iterationLimit => exact Or.inr (by simp [limitReached])
    | optimal => exact Or.inl ⟨rfl, _, rfl⟩

/-- Only an optimal plan has flows and costs. -/
theorem Transport.outcome_of_plan {s : Settings α} {p : Transportation.Problem α}
    {r : Transportation.Plan α} (h : plan s p = .ok r) :
    r.status = .optimal ∨ (r.flows = [] ∧ r.totalCost = 0) := by
  rw [plan_eq] at h
  cases hopt : optimizeNetwork s (balanced s.tolerance p).network with
  | error fault => simp [hopt, Except.map] at h
  | ok improved =>
    simp only [hopt, Except.map, Except.ok.injEq] at h
    subst h
    unfold planOf
    dsimp only
    split
    · exact Or.inl rfl
    · exact Or.inr ⟨rfl, rfl⟩

end Outcomes

namespace Service

open Wire Json

variable {settings : Settings Float} {endpoint body text : String}

/-- What a reply of an endpoint decodes to. -/
def Legible (settings : Settings Float) (body text : String) : Endpoint → Prop
  | .simplex => ∃ request r, ProgramRequest.codec.decode body = .ok request ∧
      solveProgram settings request = .ok r ∧
      ((∃ q, ProgramResponse.codec.decode text = .ok q) ↔ r.IsFinite) ∧
      (r.success = false → r.IsFinite) ∧
      ∀ q, ProgramResponse.codec.decode text = .ok q → q.success = r.success ∧
        (q.success = true → ∃ v, r.optimalValue = some v ∧ (q.optimalValue.isSome ↔ v.isFinite))
  | .assignment => ∃ q, AssignmentResponse.codec.decode text = .ok q
  | .transportation => ∃ request r, TransportationRequest.codec.decode body = .ok request ∧
      solveTransportation settings request = .ok r ∧
      ((∃ q, TransportationResponse.codec.decode text = .ok q) ↔ r.IsFinite) ∧
      (r.success = false → r.IsFinite)

theorem exchange_eq_ok {ρ σ : Type} {request : Codec ρ} {response : Codec σ}
    {answer : ρ → Except Failure σ} (h : exchange request response answer body = .ok text) :
    ∃ q r, request.decode body = .ok q ∧ answer q = .ok r ∧ text = response.encode r := by
  unfold exchange at h
  obtain ⟨q, hq, hanswered⟩ := bind_eq_ok.mp h
  obtain ⟨r, hr, htext⟩ := bind_eq_ok.mp hanswered
  refine ⟨q, r, ?_, hr, (Except.ok.inj htext).symm⟩
  cases hd : request.decode body with
  | error fault =>
    rw [hd] at hq
    cases hq
  | ok q' =>
    rw [hd] at hq
    exact congrArg Except.ok (Except.ok.inj hq)

theorem isFinite_of_solveAssignment {request : AssignmentRequest} {r : AssignmentResponse}
    (h : solveAssignment settings request = .ok r) : r.totalCost.isFinite := by
  obtain ⟨s, hs, rfl⟩ := map_eq_ok h
  exact Hungarian.isFinite_of_assign (accept_eq_ok_iff.mp hs).2

theorem isFinite_of_solveTransportation {request : TransportationRequest}
    {r : TransportationResponse} (h : solveTransportation settings request = .ok r)
    (hr : r.success = false) : r.IsFinite := by
  obtain ⟨plan, hplan, rfl⟩ := map_eq_ok h
  rcases Transport.outcome_of_plan (accept_eq_ok_iff.mp hplan).2 with hoptimal | ⟨hflows, htotal⟩
  · simp [TransportationResponse.ofPlan, Status.isSuccess, hoptimal] at hr
  · constructor
    · change plan.totalCost.isFinite = true
      rw [htotal]
      decide
    · change ∀ row ∈ plan.flows, ∀ x ∈ row, x.isFinite = true
      simp [hflows]

theorem isFinite_of_solveProgram {request : ProgramRequest} {r : ProgramResponse}
    (h : solveProgram settings request = .ok r) (hr : r.success = false) : r.IsFinite := by
  obtain ⟨o, ho, rfl⟩ := map_eq_ok h
  rcases Simplex.outcome_of_optimize (accept_eq_ok_iff.mp ho).2 with
    ⟨hoptimal, -⟩ | ⟨hstatus, -, hpoint⟩
  · simp [ProgramResponse.ofSolution, Status.isSuccess, hoptimal] at hr
  · simp [ProgramResponse.IsFinite, ProgramResponse.ofSolution, Status.isSuccess, hstatus, hpoint]

theorem optimalValue_of_solveProgram {request : ProgramRequest} {r : ProgramResponse}
    (h : solveProgram settings request = .ok r) (hr : r.success = true) :
    ∃ v, r.optimalValue = some v := by
  obtain ⟨o, ho, rfl⟩ := map_eq_ok h
  rcases Simplex.outcome_of_optimize (accept_eq_ok_iff.mp ho).2 with ⟨-, hvalue⟩ | ⟨hstatus, -⟩
  · exact hvalue
  · simp [ProgramResponse.ofSolution, Status.isSuccess, hstatus] at hr

/-- The text of a reply is as legible as the numbers in it. -/
theorem dispatch_legible (h : dispatch settings endpoint body = .ok text) :
    ∃ e, Endpoint.ofText endpoint = .ok e ∧ Legible settings body text e := by
  unfold dispatch at h
  cases he : Endpoint.ofText endpoint with
  | error failure =>
    rw [he] at h
    cases h
  | ok e =>
    rw [he] at h
    refine ⟨e, rfl, ?_⟩
    cases e with
    | simplex =>
      obtain ⟨request, r, hrequest, hr, rfl⟩ := exchange_eq_ok h
      refine ⟨request, r, hrequest, hr, r.exists_decode_iff, isFinite_of_solveProgram hr, ?_⟩
      intro q hq
      obtain ⟨hsuccess, -, hvalue⟩ := ProgramResponse.of_decode hq
      refine ⟨hsuccess, fun hq => ?_⟩
      obtain ⟨v, hv⟩ := optimalValue_of_solveProgram hr (hsuccess ▸ hq)
      refine ⟨v, hv, ?_⟩
      rw [hvalue, hv, Option.bind_some, Codec.isSome_reread]
    | assignment =>
      obtain ⟨request, r, -, hr, rfl⟩ := exchange_eq_ok h
      exact r.exists_decode_iff.mpr (isFinite_of_solveAssignment hr)
    | transportation =>
      obtain ⟨request, r, hrequest, hr, rfl⟩ := exchange_eq_ok h
      exact ⟨request, r, hrequest, hr, r.exists_decode_iff, isFinite_of_solveTransportation hr⟩

def smallGain : String :=
  "\x7b\"objective\":[2],\"constraints\":[[1]],\"rhs\":[10],\"signs\":[\"<=\"]\x7d"

def smallGainReply : String :=
  "\x7b\"success\":true,\"message\":\"Optimal solution found\",\"optimal_value\":20.0," ++
    "\"solution\":[10.0],\"slack\":[0.0]\x7d"

theorem smallGain_legible :
    dispatch Config.defaultSettings "simplex" smallGain = .ok smallGainReply ∧
      Legible Config.defaultSettings smallGain smallGainReply .simplex := by
  have hreply : dispatch Config.defaultSettings "simplex" smallGain = .ok smallGainReply := by
    decide +kernel
  have hendpoint : Endpoint.ofText "simplex" = .ok .simplex := by decide
  obtain ⟨e, he, hlegible⟩ := dispatch_legible hreply
  obtain rfl := Except.ok.inj (hendpoint.symm.trans he)
  exact ⟨hreply, hlegible⟩

/-- Ten units that cost more to ship than a number can say. -/
def steepShipment : String := "\x7b\"supply\":[10],\"demand\":[10],\"costs\":[[1e308]]\x7d"

def steepShipmentReply : String :=
  "\x7b\"success\":true,\"message\":\"Optimal shipment plan found\",\"total_cost\":null," ++
    "\"transport_matrix\":[[10.0]]\x7d"

def steepGain : String :=
  "\x7b\"objective\":[1e308],\"constraints\":[[1]],\"rhs\":[10],\"signs\":[\"<=\"]\x7d"

def steepGainReply : String :=
  "\x7b\"success\":true,\"message\":\"Optimal solution found\",\"optimal_value\":null," ++
    "\"solution\":[10.0],\"slack\":[0.0]\x7d"

/-- A total cost or an optimal value that overflows is reported as a success, with null in its
place. -/
theorem overflow_illegible :
    (∃ text, dispatch Config.defaultSettings "transportation" steepShipment = .ok text ∧
      ∀ q, TransportationResponse.codec.decode text ≠ .ok q) ∧
    ∃ text q, dispatch Config.defaultSettings "simplex" steepGain = .ok text ∧
      ProgramResponse.codec.decode text = .ok q ∧ q.success = true ∧ q.optimalValue = none := by
  constructor
  · refine ⟨steepShipmentReply, by decide +kernel, fun q hq => ?_⟩
    have hnone : (TransportationResponse.codec.decode steepShipmentReply).toOption.isSome =
        false := by
      decide +kernel
    rw [hq] at hnone
    exact Bool.noConfusion hnone
  · have hback : (ProgramResponse.codec.decode steepGainReply).toOption.map
        (fun q => (q.success, q.optimalValue)) = some (true, none) := by
      decide +kernel
    obtain ⟨q, hq, hparts⟩ := exists_ok_of_map hback
    refine ⟨steepGainReply, q, by decide +kernel, hq, ?_, ?_⟩
    · exact congrArg Prod.fst hparts
    · exact congrArg Prod.snd hparts

end Service

end LeastCost
