import LeastCost.Proofs.Json.Numbers
import LeastCost.Proofs.Json.Records
import LeastCost.Wire.Assignment
import LeastCost.Wire.Program
import LeastCost.Wire.Transportation

/-!
# Responses come back

The text of a response decodes exactly if every number is finite that must not be null. Then all
comes back, numbers up to rereading; an optimal value that is not finite comes back as none.
-/

namespace LeastCost.Wire

open Json Codec

section Lists

variable {β : Type} {f : β → Option β}

theorem mapM_some (values : List β) : values.mapM some = some values := by
  induction values with
  | nil => rfl
  | cons value values ih => simp [List.mapM_cons, ih]

theorem isSome_mapM_iff {values : List β} :
    (values.mapM f).isSome ↔ ∀ value ∈ values, (f value).isSome := by
  induction values with
  | nil => simp
  | cons value values ih =>
    rw [List.mapM_cons, List.forall_mem_cons, ← ih]
    cases f value <;> cases values.mapM f <;> simp

theorem list_write_null {c : Codec β} (values : List β) (tail : List Char)
    (h : c.list.write values = 'n' :: tail) : tail = ['u', 'l', 'l'] :=
  absurd (List.cons.inj h).1 (by decide)

end Lists

theorem echo_number (x : Float) : number.echo x = reread x := echoes_number.echo_eq x

theorem echo_optional_number (x : Option Float) :
    number.optional.echo x = some (x.bind reread) := by
  rw [(echoes_number.optional number_write_null).echo_eq]
  cases x with
  | none => rfl
  | some x =>
    have hsome := isSome_reread x
    by_cases hx : x.isFinite = true
    · obtain ⟨y, hy⟩ := Option.isSome_iff_exists.mp (hsome.trans hx)
      have hwrite : number.write x ≠ ['n', 'u', 'l', 'l'] := number_write_head_ne hx
      simp [hwrite, hy]
    · have hnone : reread x = none := by simpa [hx] using hsome
      simp [number_write_of_not_finite hx, hnone]

theorem echo_optional_numbers (xs : Option (List Float)) :
    number.list.optional.echo xs = xs.mapM fun xs => xs.mapM reread := by
  rw [(echoes_number.list.optional list_write_null).echo_eq]
  cases xs with
  | none => rfl
  | some xs =>
    have hwrite : number.list.write xs ≠ ['n', 'u', 'l', 'l'] :=
      fun h => absurd (List.cons.inj h).1 (by decide)
    simp only [hwrite, if_false]
    rfl

theorem echo_numbers (xs : List Float) : number.list.echo xs = xs.mapM reread :=
  echoes_number.list.echo_eq xs

theorem echo_rows (rows : List (List Float)) :
    number.list.list.echo rows = rows.mapM fun row => row.mapM reread :=
  echoes_number.list.list.echo_eq rows

theorem echo_flag (value : Bool) : flag.echo value = some value := echoes_flag.echo_eq value

theorem echo_string (text : String) : string.echo text = some text := echoes_string.echo_eq text

theorem echo_pairs (pairs : List (UInt64 × UInt64)) : index.pair.list.echo pairs = some pairs := by
  rw [echoes_index.pair.list.echo_eq]
  exact mapM_some pairs

theorem isSome_numbers_iff (xs : List Float) :
    (xs.mapM reread).isSome ↔ ∀ x ∈ xs, x.isFinite := by
  simp only [isSome_mapM_iff, isSome_reread]

theorem isSome_rows_iff (rows : List (List Float)) :
    (rows.mapM fun row : List Float => row.mapM reread).isSome ↔
      ∀ row ∈ rows, ∀ x ∈ row, x.isFinite := by
  simp only [isSome_mapM_iff, isSome_reread]

namespace AssignmentResponse

theorem echo_eq (r : AssignmentResponse) :
    codec.echo r = do return { r with totalCost := ← reread r.totalCost } := by
  have hschema : schema.codec.Echoes schema.echo := Schema.echoes_codec (by decide)
    ⟨echoes_number.self, echoes_index.pair.list.self, trivial⟩
  refine (((hschema.through _ _ : codec.Echoes _)).echo_eq r).trans ?_
  simp only [schema, Field.required, Schema.echo, echo_number, echo_pairs]
  cases reread r.totalCost <;> rfl

/-- The text of a response decodes exactly if the total cost is finite. -/
theorem exists_decode_iff (r : AssignmentResponse) :
    (∃ q, codec.decode (codec.encode r) = .ok q) ↔ r.totalCost.isFinite := by
  simp only [decode_eq_ok_iff, ← Option.isSome_iff_exists, echo_eq, ← isSome_reread]
  cases reread r.totalCost <;> simp

end AssignmentResponse

namespace TransportationResponse

theorem echo_eq (r : TransportationResponse) :
    codec.echo r = do
      let totalCost ← reread r.totalCost
      let transportMatrix ← r.transportMatrix.mapM fun row => row.mapM reread
      return { r with totalCost, transportMatrix } := by
  have hschema : schema.codec.Echoes schema.echo := Schema.echoes_codec (by decide)
    ⟨echoes_flag.self, echoes_string.self, echoes_number.self, echoes_number.list.list.self,
      trivial⟩
  refine (((hschema.through _ _ : codec.Echoes _)).echo_eq r).trans ?_
  simp only [schema, Field.required, Schema.echo, echo_flag, echo_string, echo_number, echo_rows]
  cases reread r.totalCost with
  | none => rfl
  | some totalCost => cases r.transportMatrix.mapM fun row => row.mapM reread <;> rfl

/-- The numbers that must not be null are finite. -/
def IsFinite (r : TransportationResponse) : Prop :=
  r.totalCost.isFinite ∧ ∀ row ∈ r.transportMatrix, ∀ x ∈ row, x.isFinite

/-- The text of a response decodes exactly if the total cost and all shipments are finite. -/
theorem exists_decode_iff (r : TransportationResponse) :
    (∃ q, codec.decode (codec.encode r) = .ok q) ↔ r.IsFinite := by
  simp only [decode_eq_ok_iff, ← Option.isSome_iff_exists, echo_eq, IsFinite]
  rw [← isSome_rows_iff, ← isSome_reread]
  cases reread r.totalCost <;>
    cases r.transportMatrix.mapM fun row => row.mapM reread <;> simp

end TransportationResponse

namespace ProgramResponse

theorem echo_eq (r : ProgramResponse) :
    codec.echo r = do
      let solution ← r.solution.mapM reread
      let slack ← r.slack.mapM fun xs => xs.mapM reread
      return { r with optimalValue := r.optimalValue.bind reread, solution, slack } := by
  have hschema : schema.codec.Echoes schema.echo := Schema.echoes_codec (by decide)
    ⟨echoes_flag.self, echoes_string.self, (echoes_number.optional number_write_null).self,
      echoes_number.list.self, (echoes_number.list.optional list_write_null).self, trivial⟩
  refine (((hschema.through _ _ : codec.Echoes _)).echo_eq r).trans ?_
  simp only [schema, Field.required, Field.optional, Schema.echo, echo_flag, echo_string,
    echo_optional_number, echo_numbers, echo_optional_numbers]
  cases r.solution.mapM reread with
  | none => rfl
  | some solution => cases r.slack.mapM fun xs => xs.mapM reread <;> rfl

def IsFinite (r : ProgramResponse) : Prop :=
  (∀ x ∈ r.solution, x.isFinite) ∧ ∀ xs ∈ r.slack, ∀ x ∈ xs, x.isFinite

theorem isSome_slack_iff (slack : Option (List Float)) :
    (slack.mapM fun xs : List Float => xs.mapM reread).isSome ↔
      ∀ xs ∈ slack, ∀ x ∈ xs, x.isFinite := by
  cases slack with
  | none => simp
  | some xs =>
    have hmap : (some xs).mapM (fun xs : List Float => xs.mapM reread) =
        (xs.mapM reread).map some := rfl
    rw [hmap, Option.isSome_map, isSome_numbers_iff]
    simp

/-- The text of a response decodes exactly if the solution and all slacks are finite. -/
theorem exists_decode_iff (r : ProgramResponse) :
    (∃ q, codec.decode (codec.encode r) = .ok q) ↔ r.IsFinite := by
  simp only [decode_eq_ok_iff, ← Option.isSome_iff_exists, echo_eq, IsFinite]
  rw [← isSome_slack_iff, ← isSome_numbers_iff]
  cases r.solution.mapM reread <;> cases r.slack.mapM fun xs => xs.mapM reread <;> simp

theorem of_decode {r q : ProgramResponse} (h : codec.decode (codec.encode r) = .ok q) :
    q.success = r.success ∧ q.message = r.message ∧
      q.optimalValue = r.optimalValue.bind reread := by
  rw [decode_eq_ok_iff, echo_eq] at h
  obtain ⟨solution, -, h⟩ := Option.bind_eq_some_iff.mp h
  obtain ⟨slack, -, h⟩ := Option.bind_eq_some_iff.mp h
  obtain rfl := Option.some.inj h
  exact ⟨rfl, rfl, rfl⟩

end ProgramResponse

end LeastCost.Wire
