import LeastCost.Proofs.Hungarian.Termination
import LeastCost.Proofs.Service.Dispatch
import LeastCost.Service.Rpc
import Mathlib.Data.Set.List

/-!
# Calls beside requests

A call is answered as the request with the same fields is. What a request cannot say is a number
that is no sign, and such a call is refused before anything else is looked at.
-/

namespace LeastCost.Service.Rpc

open Wire Json

section Signs

def signCode : Sign → Int
  | .lessEqual => 0
  | .greaterEqual => 1
  | .equal => 2

def signCodes : List Int := [0, 1, 2]

theorem sign?_signCode (s : Sign) : sign? (signCode s) = .ok s := by cases s <;> rfl

theorem exists_signCode {code : Int} (h : code ∈ signCodes) : ∃ s, signCode s = code := by
  simp only [signCodes, List.mem_cons, List.not_mem_nil, or_false] at h
  rcases h with rfl | rfl | rfl
  · exact ⟨.lessEqual, rfl⟩
  · exact ⟨.greaterEqual, rfl⟩
  · exact ⟨.equal, rfl⟩

theorem exists_map_signCode {codes : List Int} (h : ∀ code ∈ codes, code ∈ signCodes) :
    ∃ signs : List Sign, signs.map signCode = codes := by
  have hrange : codes ∈ Set.range (List.map signCode) := by
    rw [Set.range_list_map]
    exact fun code hcode => exists_signCode (h code hcode)
  exact hrange

theorem sign?_of_notMem {code : Int} (h : code ∉ signCodes) :
    sign? code = .error (.invalidArgument ("Invalid constraint sign: " ++ toString code)) := by
  unfold sign?
  split
  · exact absurd (by decide) h
  · exact absurd (by decide) h
  · exact absurd (by decide) h
  · rfl

theorem mapM_sign? (signs : List Sign) : (signs.map signCode).mapM sign? = .ok signs := by
  induction signs with
  | nil => rfl
  | cons s signs ih =>
    rw [List.map_cons, List.mapM_cons, sign?_signCode, ih]
    rfl

/-- The signs before the first bad number are read, and that number is refused. -/
theorem mapM_sign?_of_find? {codes : List Int} {code : Int}
    (h : codes.find? (· ∉ signCodes) = some code) :
    codes.mapM sign? =
      .error (.invalidArgument ("Invalid constraint sign: " ++ toString code)) := by
  obtain ⟨hcode, before, after, rfl, hbefore⟩ := List.find?_eq_some_iff_append.mp h
  obtain ⟨signs, rfl⟩ := exists_map_signCode fun c hc => by simpa using hbefore c hc
  rw [List.mapM_append, mapM_sign?, List.mapM_cons, sign?_of_notMem (by simpa using hcode)]
  rfl

end Signs

section Outcomes

variable {ρ σ τ : Type}

/-- An answer to a call beside the answer to a request. A reply repeats a response. A problem that
is rejected makes the message invalid, and an engine that fails is a fault of the service. -/
inductive Mirrors (wording : Fault → String) (Repeats : τ → σ → Prop) :
    Except Refusal τ → Except Failure σ → Prop
  | reply {reply : τ} {response : σ} :
      Repeats reply response → Mirrors wording Repeats (.ok reply) (.ok response)
  | rejection (violations : List Violation) : Mirrors wording Repeats
      (.error (.invalidArgument ((Failure.invalidProblem violations).message wording)))
      (.error (.invalidProblem violations))
  | fault (fault : EngineFault) : Mirrors wording Repeats
      (.error (.internal ("Solver error: " ++ (Failure.engine fault).message wording)))
      (.error (.engine fault))

theorem Mirrors.of_accept {ω : Type} {wording : Fault → String} {Repeats : τ → σ → Prop}
    {violations : List Violation} {solve : Except EngineFault ω} {respond : ω → σ} {rephrase : σ → τ}
    (h : ∀ s, accept violations solve = .ok s → Repeats (rephrase (respond s)) (respond s)) :
    Mirrors wording Repeats
      (do
        let response ← ((accept violations solve).map respond).mapError (.ofFailure wording)
        return rephrase response)
      ((accept violations solve).map respond) := by
  cases violations with
  | cons v violations => exact .rejection (v :: violations)
  | nil =>
    cases solve with
    | error fault => exact .fault fault
    | ok s => exact .reply (h s rfl)

/-- A call is answered as a request is, and so is every body that says the request. -/
structure Agrees (wording : Fault → String) (settings : Settings Float) (endpoint : Endpoint)
    (request : Codec ρ) (response : Codec σ) (Repeats : τ → σ → Prop) (r : ρ)
    (called : Except Refusal τ) (solved : Except Failure σ) : Prop where
  mirrors : Mirrors wording Repeats called solved
  dispatched : ∀ name body, Endpoint.ofText name = .ok endpoint → request.decode body = .ok r →
    dispatch settings name body = solved.map response.encode

theorem exchange_of_decode {request : Codec ρ} {response : Codec σ}
    {answer : ρ → Except Failure σ} {body : String} {r : ρ} (h : request.decode body = .ok r) :
    exchange request response answer body = (answer r).map response.encode := by
  rw [exchange, h]
  change (answer r >>= fun s => pure (response.encode s)) = _
  cases answer r <;> rfl

end Outcomes

section Fields

structure ProgramCall.Asks (call : ProgramCall) (r : ProgramRequest) : Prop where
  objective : r.objective = call.objective
  constraints : r.constraints = call.constraints.map Row.values
  rhs : r.rhs = call.rhs
  signs : r.signs.map signCode = call.signs
  maximize : r.maximize = call.maximize.getD true

structure AssignmentCall.Asks (call : AssignmentCall) (r : AssignmentRequest) : Prop where
  costMatrix : r.costMatrix = call.costMatrix.map Row.values

structure TransportationCall.Asks (call : TransportationCall) (r : TransportationRequest) :
    Prop where
  supply : r.supply = call.supply
  demand : r.demand = call.demand
  costs : r.costs = call.costs.map Row.values

structure ProgramReply.Repeats (reply : ProgramReply) (response : ProgramResponse) : Prop where
  success : reply.success = response.success
  message : reply.message = response.message
  optimalValue : reply.optimalValue = response.optimalValue
  solution : reply.solution = response.solution
  slack : reply.slack = response.slack.getD []

structure AssignmentReply.Repeats (reply : AssignmentReply) (response : AssignmentResponse) :
    Prop where
  totalCost : reply.totalCost = response.totalCost
  assignments : reply.assignments.map (fun (row, column) => (row.toNat, column.toNat)) =
    response.assignments.map fun (row, column) => (row.toNat, column.toNat)

structure TransportationReply.Repeats (reply : TransportationReply)
    (response : TransportationResponse) : Prop where
  success : reply.success = response.success
  message : reply.message = response.message
  totalCost : reply.totalCost = response.totalCost
  transportMatrix : reply.transportMatrix.map Row.values = response.transportMatrix

theorem ProgramCall.asks_toRequest {call : ProgramCall}
    (h : ∀ code ∈ call.signs, code ∈ signCodes) : ∃ r, call.toRequest = .ok r ∧ call.Asks r := by
  obtain ⟨signs, hsigns⟩ := exists_map_signCode h
  have hmap : call.signs.mapM sign? = .ok signs := hsigns ▸ mapM_sign? signs
  refine ⟨⟨call.objective, call.constraints, call.rhs, signs, call.maximize.getD true⟩, ?_, ?_⟩
  · rw [toRequest, hmap]
    rfl
  · exact ⟨rfl, rfl, rfl, hsigns, rfl⟩

theorem toNat_words {i : Nat} (h : i < 2 ^ 32) :
    i.toUInt64.toUInt32.toNat = i.toUInt64.toNat := by
  have hlong : i.toUInt64.toNat = i := by
    simp only [Nat.toUInt64_eq, UInt64.toNat_ofNat']
    omega
  rw [UInt64.toNat_toUInt32, hlong, Nat.mod_eq_of_lt h]

theorem AssignmentReply.repeats_ofSolution {s : Assignment.Solution Float}
    (h : ∀ x ∈ s.pairs, x.1 < 2 ^ 32 ∧ x.2 < 2 ^ 32) :
    (ofResponse (.ofSolution s)).Repeats (.ofSolution s) where
  totalCost := rfl
  assignments := by
    simp only [ofResponse, AssignmentResponse.ofSolution, List.map_map]
    refine List.map_congr_left fun x hx => ?_
    exact Prod.ext (toNat_words (h x hx).1) (toNat_words (h x hx).2)

theorem TransportationReply.repeats_ofResponse (response : TransportationResponse) :
    (ofResponse response).Repeats response where
  success := rfl
  message := rfl
  totalCost := rfl
  transportMatrix := by
    rw [ofResponse, List.map_map]
    exact List.map_id _

theorem lt_of_mem_pairs {settings : Settings Float} {p : Assignment.Problem Float}
    {s : Assignment.Solution Float} (h : Hungarian.solve settings p = .ok s) :
    ∀ x ∈ s.pairs, x.1 < p.size ∧ x.2 < p.size := by
  have hassign := (accept_eq_ok_iff.mp h).2
  rcases Hungarian.assign_permutation_or_overflow settings.tolerance
      (Grid.ofLists p.costs : Grid Float p.size p.size) with ⟨r, hr, σ, hpairs⟩ | ⟨stage, he⟩
  · obtain rfl := Except.ok.inj (hassign.symm.trans hr)
    rw [hpairs, List.forall_mem_map]
    exact fun i _ => ⟨i.isLt, (σ i).isLt⟩
  · cases he.symm.trans hassign

end Fields

section Calls

variable (wording : Fault → String) (settings : Settings Float)

theorem solveProgram_of_find? {call : ProgramCall} {code : Int}
    (h : call.signs.find? (· ∉ signCodes) = some code) :
    solveProgram wording settings call =
      .error (.invalidArgument ("Invalid constraint sign: " ++ toString code)) := by
  rw [solveProgram, ProgramCall.toRequest, mapM_sign?_of_find? h]
  rfl

theorem agrees_program {call : ProgramCall} (h : ∀ code ∈ call.signs, code ∈ signCodes) :
    ∃ r, call.Asks r ∧ Agrees wording settings .simplex ProgramRequest.codec ProgramResponse.codec
      ProgramReply.Repeats r (solveProgram wording settings call)
      (Service.solveProgram settings r) := by
  obtain ⟨r, hr, hasks⟩ := ProgramCall.asks_toRequest h
  refine ⟨r, hasks, ?_, fun name body hname hbody => ?_⟩
  · rw [solveProgram, hr]
    exact .of_accept fun s _ => ⟨rfl, rfl, rfl, rfl, rfl⟩
  · rw [dispatch, hname]
    exact exchange_of_decode hbody

theorem agrees_assignment {call : AssignmentCall} (h : call.costMatrix.length < 2 ^ 32) :
    ∃ r, call.Asks r ∧ Agrees wording settings .assignment AssignmentRequest.codec
      AssignmentResponse.codec AssignmentReply.Repeats r (solveAssignment wording settings call)
      (Service.solveAssignment settings r) := by
  refine ⟨call.toRequest, ⟨rfl⟩, ?_, fun name body hname hbody => ?_⟩
  · -- The pairs are those of a permutation, so both indices are below the number of rows.
    refine .of_accept fun s hs => AssignmentReply.repeats_ofSolution fun x hx => ?_
    have hsize : call.toRequest.toProblem.size = call.costMatrix.length := List.length_map _
    have hx := lt_of_mem_pairs (p := call.toRequest.toProblem) hs x hx
    omega
  · rw [dispatch, hname]
    exact exchange_of_decode hbody

theorem agrees_transportation (call : TransportationCall) :
    ∃ r, call.Asks r ∧ Agrees wording settings .transportation TransportationRequest.codec
      TransportationResponse.codec TransportationReply.Repeats r
      (solveTransportation wording settings call) (Service.solveTransportation settings r) := by
  refine ⟨call.toRequest, ⟨rfl, rfl, rfl⟩, ?_, fun name body hname hbody => ?_⟩
  · exact .of_accept fun s _ => TransportationReply.repeats_ofResponse _
  · rw [dispatch, hname]
    exact exchange_of_decode hbody

/-- A linear program with a number that is no sign is refused with the first such number. Every
other call, with fewer rows of costs than there are 32-bit words, is answered as the request with
the same fields is. -/
theorem calls_agree :
    (∀ (call : ProgramCall) (code : Int), call.signs.find? (· ∉ signCodes) = some code →
      solveProgram wording settings call =
        .error (.invalidArgument ("Invalid constraint sign: " ++ toString code))) ∧
    (∀ call : ProgramCall, (∀ code ∈ call.signs, code ∈ signCodes) →
      ∃ r, call.Asks r ∧ Agrees wording settings .simplex ProgramRequest.codec ProgramResponse.codec
        ProgramReply.Repeats r (solveProgram wording settings call)
        (Service.solveProgram settings r)) ∧
    (∀ call : AssignmentCall, call.costMatrix.length < 2 ^ 32 →
      ∃ r, call.Asks r ∧ Agrees wording settings .assignment AssignmentRequest.codec
        AssignmentResponse.codec AssignmentReply.Repeats r (solveAssignment wording settings call)
        (Service.solveAssignment settings r)) ∧
    ∀ call : TransportationCall,
      ∃ r, call.Asks r ∧ Agrees wording settings .transportation TransportationRequest.codec
        TransportationResponse.codec TransportationReply.Repeats r
        (solveTransportation wording settings call) (Service.solveTransportation settings r) :=
  ⟨fun _ _ => solveProgram_of_find? wording settings, fun _ => agrees_program wording settings,
    fun _ => agrees_assignment wording settings, agrees_transportation wording settings⟩

end Calls

def misread : ProgramCall := ⟨[], [], [1], [2, 7, -1], none⟩

def tenUnits : ProgramCall := ⟨[2], [⟨[1]⟩], [10], [0], none⟩

def single : AssignmentCall := ⟨[⟨[3]⟩]⟩

def silent : Fault → String := fun _ => ""

theorem calls_agree_small :
    solveProgram silent Config.defaultSettings misread =
      .error (.invalidArgument "Invalid constraint sign: 7") ∧
    (∃ r, tenUnits.Asks r ∧ Agrees silent Config.defaultSettings .simplex ProgramRequest.codec
      ProgramResponse.codec ProgramReply.Repeats r
      (solveProgram silent Config.defaultSettings tenUnits)
      (Service.solveProgram Config.defaultSettings r)) ∧
    ∃ r, single.Asks r ∧ Agrees silent Config.defaultSettings .assignment AssignmentRequest.codec
      AssignmentResponse.codec AssignmentReply.Repeats r
      (solveAssignment silent Config.defaultSettings single)
      (Service.solveAssignment Config.defaultSettings r) := by
  obtain ⟨hrefused, hprogram, hassignment, -⟩ := calls_agree silent Config.defaultSettings
  refine ⟨hrefused misread 7 (by decide), hprogram tenUnits (by decide), ?_⟩
  exact hassignment single (by decide)

end LeastCost.Service.Rpc
