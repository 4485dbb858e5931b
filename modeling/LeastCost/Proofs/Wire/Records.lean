import LeastCost.Proofs.Json.Members
import LeastCost.Proofs.Wire.Responses
import LeastCost.Wire.Rejection

/-!
# Records on the wire

Every record that is sent or received is the values of the fields of a schema, and the codecs of the
fields are lawful. The names of the fields, the values for members left out, and the numbers are all
that tells the records apart.
-/

namespace LeastCost.Wire

open Json Codec

inductive Record where
  | programRequest
  | programResponse
  | assignmentRequest
  | assignmentResponse
  | transportationRequest
  | transportationResponse
  | rejection

namespace Record

@[reducible] def Value : Record → Type
  | programRequest => ProgramRequest
  | programResponse => ProgramResponse
  | assignmentRequest => AssignmentRequest
  | assignmentResponse => AssignmentResponse
  | transportationRequest => TransportationRequest
  | transportationResponse => TransportationResponse
  | rejection => Rejection

def codec : (k : Record) → Codec k.Value
  | programRequest => ProgramRequest.codec
  | programResponse => ProgramResponse.codec
  | assignmentRequest => AssignmentRequest.codec
  | assignmentResponse => AssignmentResponse.codec
  | transportationRequest => TransportationRequest.codec
  | transportationResponse => TransportationResponse.codec
  | rejection => Rejection.codec

def schema : Record → Schema
  | programRequest => ProgramRequest.schema
  | programResponse => ProgramResponse.schema
  | assignmentRequest => AssignmentRequest.schema
  | assignmentResponse => AssignmentResponse.schema
  | transportationRequest => TransportationRequest.schema
  | transportationResponse => TransportationResponse.schema
  | rejection => Rejection.schema

def fields : (k : Record) → k.Value ≃ k.schema.Value
  | programRequest =>
    { toFun := fun r => (r.objective, r.constraints, r.rhs, r.signs, r.maximize, ())
      invFun := fun (objective, constraints, rhs, signs, maximize, ()) =>
        { objective, constraints, rhs, signs, maximize }
      left_inv := fun _ => rfl
      right_inv := fun _ => rfl }
  | programResponse =>
    { toFun := fun r => (r.success, r.message, r.optimalValue, r.solution, r.slack, ())
      invFun := fun (success, message, optimalValue, solution, slack, ()) =>
        { success, message, optimalValue, solution, slack }
      left_inv := fun _ => rfl
      right_inv := fun _ => rfl }
  | assignmentRequest =>
    { toFun := fun r => (r.costMatrix, ())
      invFun := fun (costMatrix, ()) => { costMatrix }
      left_inv := fun _ => rfl
      right_inv := fun _ => rfl }
  | assignmentResponse =>
    { toFun := fun r => (r.totalCost, r.assignments, ())
      invFun := fun (totalCost, assignments, ()) => { totalCost, assignments }
      left_inv := fun _ => rfl
      right_inv := fun _ => rfl }
  | transportationRequest =>
    { toFun := fun r => (r.supply, r.demand, r.costs, ())
      invFun := fun (supply, demand, costs, ()) => { supply, demand, costs }
      left_inv := fun _ => rfl
      right_inv := fun _ => rfl }
  | transportationResponse =>
    { toFun := fun r => (r.success, r.message, r.totalCost, r.transportMatrix, ())
      invFun := fun (success, message, totalCost, transportMatrix, ()) =>
        { success, message, totalCost, transportMatrix }
      left_inv := fun _ => rfl
      right_inv := fun _ => rfl }
  | rejection =>
    { toFun := fun r => (r.detail, ())
      invFun := fun (detail, ()) => { detail }
      left_inv := fun _ => rfl
      right_inv := fun _ => rfl }

theorem codec_eq (k : Record) : k.codec = k.schema.codec.through k.fields.symm k.fields := by
  cases k <;> rfl

def numbers : (k : Record) → k.Value → List Float
  | programRequest, r => r.objective ++ (r.constraints.flatten ++ r.rhs)
  | programResponse, r => r.optimalValue.toList ++ (r.solution ++ r.slack.toList.flatten)
  | assignmentRequest, r => r.costMatrix.flatten
  | assignmentResponse, r => [r.totalCost]
  | transportationRequest, r => r.supply ++ (r.demand ++ r.costs.flatten)
  | transportationResponse, r => r.totalCost :: r.transportMatrix.flatten
  | rejection, _ => []

def fieldNumbers : (k : Record) → k.schema.Numbers
  | programRequest => (id, List.flatten, id, fun _ => [], fun _ => [], ())
  | programResponse =>
    (fun _ => [], fun _ => [], Option.toList, id, fun xs => xs.toList.flatten, ())
  | assignmentRequest => (List.flatten, ())
  | assignmentResponse => (fun x => [x], fun _ => [], ())
  | transportationRequest => (id, id, List.flatten, ())
  | transportationResponse => (fun _ => [], fun _ => [], fun x => [x], List.flatten, ())
  | rejection => (fun _ => [], ())

theorem numbersOf_fields (k : Record) (r : k.Value) :
    k.schema.numbersOf k.fieldNumbers (k.fields r) = k.numbers r := by
  cases k with
  | programRequest =>
    exact congrArg (fun xs => r.objective ++ (r.constraints.flatten ++ xs)) (List.append_nil r.rhs)
  | programResponse =>
    exact congrArg (fun xs => r.optimalValue.toList ++ (r.solution ++ xs)) (List.append_nil _)
  | assignmentRequest => exact List.append_nil _
  | assignmentResponse => rfl
  | transportationRequest =>
    exact congrArg (fun xs => r.supply ++ (r.demand ++ xs)) (List.append_nil _)
  | transportationResponse => exact congrArg (r.totalCost :: ·) (List.append_nil _)
  | rejection => rfl

theorem lawful_numbers : number.list.Lawful id :=
  lawful_number.list.congr (by simp)

theorem lawful_rows : number.list.list.Lawful List.flatten :=
  lawful_numbers.list.congr (by simp)

theorem lawful_optionalNumber : number.optional.Lawful Option.toList :=
  (lawful_number.optional fun x tail hx => number_write_head_ne (hx x List.mem_cons_self)).congr
    (by simp)

theorem lawful_optionalNumbers : number.list.optional.Lawful fun xs => xs.toList.flatten :=
  (lawful_numbers.optional fun xs tail _ h => absurd (List.cons.inj h).1 (by decide)).congr
    (by simp)

theorem lawful_signs : sign.list.Lawful fun _ => [] :=
  lawful_sign.list.congr (by simp)

theorem lawful_pairs : index.pair.list.Lawful fun _ => [] :=
  lawful_index.pair.list.congr (by simp)

theorem lawful (k : Record) : k.schema.Lawful k.fieldNumbers := by
  cases k with
  | programRequest =>
    refine .required lawful_numbers (by decide) ?_
    refine .withDefault lawful_rows (by decide) (by simp) ?_
    refine .withDefault lawful_numbers (by decide) (by simp) ?_
    refine .withDefault lawful_signs (by decide) (by simp) ?_
    exact .withDefault lawful_flag (by decide) (by simp) .done
  | programResponse =>
    refine .required lawful_flag (by decide) (.required lawful_string (by decide) ?_)
    refine .optional lawful_optionalNumber (by decide) (by simp) ?_
    refine .required lawful_numbers (by decide) ?_
    exact .optional lawful_optionalNumbers (by decide) (by simp) .done
  | assignmentRequest => exact .required lawful_rows (by decide) .done
  | assignmentResponse =>
    exact .required lawful_number (by decide) (.required lawful_pairs (by decide) .done)
  | transportationRequest =>
    refine .required lawful_numbers (by decide) ?_
    exact .required lawful_numbers (by decide) (.required lawful_rows (by decide) .done)
  | transportationResponse =>
    refine .required lawful_flag (by decide) (.required lawful_string (by decide) ?_)
    exact .required lawful_number (by decide) (.required lawful_rows (by decide) .done)
  | rejection => exact .required lawful_string (by decide) .done

section Decoding

variable {k : Record} {r : k.Value} {before lead after : List Char} {members : List Member}

theorem decode_eq (k : Record) (text : String) :
    k.codec.decode text = (k.schema.codec.decode text).map k.fields.symm := by
  rw [codec_eq, decode_through]

/-- The members of a record in any order, with others between them, and blanks anywhere. -/
theorem decode_of_arranges (hreread : ∀ x ∈ k.numbers r, reread x = some x)
    (hbefore : Blanks before) (hlead : Blanks lead) (hafter : Blanks after)
    (hmembers : k.schema.Arranges (k.fields r) members) :
    k.codec.decode (String.ofList (before ++ (objectText lead members ++ after))) = .ok r := by
  have hread : k.schema.codec.read (before ++ (objectText lead members ++ after)) =
      .ok (k.fields r, after) := by
    rw [Schema.read_blanks hbefore]
    exact k.lawful.read_arranged (k.numbersOf_fields r ▸ hreread) hlead hmembers after
  rw [decode_eq, decode_ofList hread hafter]
  exact congrArg Except.ok (k.fields.symm_apply_apply r)

theorem decode_of_repeated {key : String} (hbefore : Blanks before) (hlead : Blanks lead)
    (hvalid : ∀ m ∈ members, m.Valid) (hkey : key ∈ k.schema.keys)
    (htwice : 2 ≤ (members.map (·.name)).count key) :
    ∃ fault, k.codec.decode (String.ofList (before ++ (objectText lead members ++ after))) =
      .error fault := by
  obtain ⟨fault, hread⟩ := k.lawful.read_repeated hlead hvalid hkey htwice after
  refine ⟨fault, ?_⟩
  rw [decode_eq, decode, String.toList_ofList, Schema.read_blanks hbefore, hread]
  rfl

theorem encode_eq (k : Record) (r : k.Value) :
    k.codec.encode r = String.ofList (objectText [] (k.schema.plainMembers (k.fields r))) := by
  rw [codec_eq]
  exact congrArg String.ofList (Schema.write_eq k.schema (k.fields r))

theorem isFinite_of_decode {text : String} (h : k.codec.decode text = .ok r) :
    ∀ x ∈ k.numbers r, x.isFinite = true := by
  rw [decode_eq] at h
  obtain ⟨values, hvalues, rfl⟩ := map_eq_ok h
  obtain ⟨rest, hread⟩ := exists_read hvalues
  have hfinite := k.lawful.finite hread
  rwa [← numbersOf_fields, k.fields.apply_symm_apply]

end Decoding

end Record

end LeastCost.Wire
