import LeastCost.Proofs.Service.Dispatch
import LeastCost.Proofs.Wire.Records

/-!
# Replies that tell of a failure

A rejection has a field that no response has, so a reply decodes as a rejection exactly if the
request failed. What it then says of the failure is not changed by how its text is escaped.
-/

namespace LeastCost

namespace Wire

open Json Codec

theorem Rejection.decode_encode (r : Rejection) : codec.decode (codec.encode r) = .ok r := by
  have hdecode := @Record.decode_of_arranges .rejection r [] [] [] _ (List.forall_mem_nil _)
    .nil .nil .nil (Record.rejection.lawful.arranges_plainMembers (Record.rejection.fields r))
  rw [List.nil_append, List.append_nil, ← Record.encode_eq] at hdecode
  exact hdecode

/-- What has no detail is not taken for a rejection. -/
theorem Record.decode_rejection_of_not_mem {k : Record} (hk : "detail" ∉ k.schema.keys)
    (r : k.Value) : ∃ fault, Rejection.codec.decode (k.codec.encode r) = .error fault := by
  have hforeign : ∀ m ∈ k.schema.plainMembers (k.fields r), m.name ∉ rejection.schema.keys := by
    intro m hm hdetail
    have hname : m.name ∈ k.schema.keys :=
      k.schema.map_name_plainMembers (k.fields r) ▸ List.mem_map_of_mem hm
    have heq : m.name = "detail" := List.mem_singleton.mp hdetail
    exact hk (heq ▸ hname)
  have hreread : ∀ x ∈ rejection.schema.numbersOf rejection.fieldNumbers (rejection.fields ⟨""⟩),
      reread x = some x :=
    List.forall_mem_nil _
  have hread := rejection.lawful.read_foreign hreread
    (k.lawful.arranges_plainMembers (k.fields r)).valid hforeign []
  rw [List.append_nil] at hread
  refine ⟨.mismatch, ?_⟩
  change rejection.codec.decode (k.codec.encode r) = _
  rw [encode_eq, decode_eq, decode, String.toList_ofList, hread]
  rfl

end Wire

namespace Service

open Wire Json

variable {settings : Settings Float} {endpoint body text : String}

theorem exists_of_dispatch_eq_ok (h : dispatch settings endpoint body = .ok text) :
    ∃ (k : Record) (r : k.Value), "detail" ∉ k.schema.keys ∧ text = k.codec.encode r := by
  obtain ⟨e, -, h⟩ := bind_eq_ok.mp h
  cases e with
  | simplex =>
    obtain ⟨-, r, -, -, rfl⟩ := exchange_eq_ok h
    exact ⟨.programResponse, r, by decide, rfl⟩
  | assignment =>
    obtain ⟨-, r, -, -, rfl⟩ := exchange_eq_ok h
    exact ⟨.assignmentResponse, r, by decide, rfl⟩
  | transportation =>
    obtain ⟨-, r, -, -, rfl⟩ := exchange_eq_ok h
    exact ⟨.transportationResponse, r, by decide, rfl⟩

section UnknownEndpoint

theorem map_accept_ne {σ τ : Type} (f : σ → τ) (violations : List Violation)
    (e : Except EngineFault σ) : (accept violations e).map f ≠ .error (.unknownEndpoint text) := by
  cases violations <;> cases e <;> simp [Except.map]

theorem exchange_ne {ρ σ : Type} {request : Codec ρ} {response : Codec σ}
    {answer : ρ → Except Failure σ} (h : ∀ q, answer q ≠ .error (.unknownEndpoint text)) :
    exchange request response answer body ≠ .error (.unknownEndpoint text) := by
  unfold exchange
  cases request.decode body with
  | error fault => exact fun heq => Failure.noConfusion (Except.error.inj heq)
  | ok q =>
    change (answer q >>= fun r => pure (response.encode r)) ≠ _
    have hq := h q
    cases hanswer : answer q with
    | error failure =>
      rw [hanswer] at hq
      exact fun heq => hq (congrArg Except.error (Except.error.inj heq))
    | ok r => rintro ⟨⟩

theorem eq_of_dispatch_eq_unknown
    (h : dispatch settings endpoint body = .error (.unknownEndpoint text)) : text = endpoint := by
  unfold dispatch at h
  unfold Endpoint.ofText at h
  split at h
  · next e _ =>
    cases e with
    | simplex => exact absurd h (exchange_ne fun q => map_accept_ne _ _ _)
    | assignment => exact absurd h (exchange_ne fun q => map_accept_ne _ _ _)
    | transportation => exact absurd h (exchange_ne fun q => map_accept_ne _ _ _)
  · exact (Failure.unknownEndpoint.inj (Except.error.inj h)).symm

end UnknownEndpoint

/-- A reply decodes as a rejection exactly if the request failed, and then it tells the failure,
however the fault of a body is worded. A reply to any other request is the response itself. Any text
comes back as the detail of a rejection. -/
theorem decode_respond (settings : Settings Float) (wording : Json.Fault → String)
    (endpoint body : String) :
    ((∃ q, Rejection.codec.decode (respond settings wording endpoint body) = .ok q) ↔
      ∃ failure, dispatch settings endpoint body = .error failure) ∧
    (∀ failure, dispatch settings endpoint body = .error failure →
      Rejection.codec.decode (respond settings wording endpoint body) =
          .ok ⟨failure.message wording⟩ ∧
        ∀ text, failure = .unknownEndpoint text →
          failure.message wording = "Unknown endpoint: " ++ endpoint) ∧
    (∀ text, dispatch settings endpoint body = .ok text →
      respond settings wording endpoint body = text) ∧
    ∀ detail, Rejection.codec.decode (Rejection.codec.encode ⟨detail⟩) = .ok ⟨detail⟩ := by
  unfold respond
  cases h : dispatch settings endpoint body with
  | error failure =>
    have hdecode : Rejection.codec.decode (Rejection.body wording failure) =
        .ok ⟨failure.message wording⟩ :=
      Rejection.decode_encode (Rejection.ofFailure wording failure)
    refine ⟨⟨fun _ => ⟨failure, rfl⟩, fun _ => ⟨_, hdecode⟩⟩, ?_, ?_, fun _ =>
      Rejection.decode_encode _⟩
    · rintro _ ⟨rfl⟩
      refine ⟨hdecode, ?_⟩
      rintro text rfl
      rw [eq_of_dispatch_eq_unknown h]
      rfl
    · rintro _ ⟨⟩
  | ok text =>
    obtain ⟨k, r, hk, rfl⟩ := exists_of_dispatch_eq_ok h
    obtain ⟨fault, hfault⟩ := Record.decode_rejection_of_not_mem hk r
    refine ⟨⟨?_, ?_⟩, ?_, ?_, fun _ => Rejection.decode_encode _⟩
    · rintro ⟨q, hq⟩
      exact absurd (hfault.symm.trans hq) (by simp)
    · rintro ⟨failure, ⟨⟩⟩
    · rintro failure ⟨⟩
    · rintro _ ⟨rfl⟩
      rfl

/-- The name of no endpoint, with characters that are escaped in a reply. -/
def strangeEndpoint : String := "/solve/\"simplex\"\n\x01"

def quoting : Json.Fault → String
  | .malformed => "not \"JSON\"\n"
  | .mismatch => "not a \"fit\"\n"
  | .truncated => "no \"end\"\n"

theorem strangeEndpoint_decode_respond :
    Rejection.codec.decode (respond Config.defaultSettings quoting strangeEndpoint "") =
      .ok ⟨"Unknown endpoint: " ++ strangeEndpoint⟩ ∧
    Rejection.codec.decode (respond Config.defaultSettings quoting "simplex" "\x7b") =
      .ok ⟨"Malformed request: no \"end\"\n"⟩ := by
  have hunknown : dispatch Config.defaultSettings strangeEndpoint "" =
      .error (.unknownEndpoint strangeEndpoint) := by
    decide +kernel
  have hmalformed : dispatch Config.defaultSettings "simplex" "\x7b" =
      .error (.malformed .truncated) := by
    decide +kernel
  obtain ⟨-, hreport, -⟩ := decode_respond Config.defaultSettings quoting strangeEndpoint ""
  obtain ⟨-, hreport', -⟩ := decode_respond Config.defaultSettings quoting "simplex" "\x7b"
  exact ⟨(hreport _ hunknown).1, (hreport' _ hmalformed).1⟩

end Service

end LeastCost
