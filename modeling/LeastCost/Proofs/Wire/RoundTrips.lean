import LeastCost.Proofs.Problem.WellFormed
import LeastCost.Proofs.Wire.Records

/-!
# Round trips

What is sent and received comes back from its text, whatever strings and lists it is made of. A
record also comes back from the text of its members in another order, with other members between
them and blanks between tokens. All that is assumed is that the digits of its numbers stand for
them.
-/

namespace LeastCost.Wire

open Json Codec

/-- The digits that are written for a finite number are read back as that number. -/
def DigitsRestore (xs : List Float) : Prop :=
  ∀ x ∈ xs, x.isFinite = true → number.decode (number.encode x) = .ok x

instance (xs : List Float) : Decidable (DigitsRestore xs) :=
  inferInstanceAs
    (Decidable (∀ x ∈ xs, x.isFinite = true → number.decode (number.encode x) = .ok x))

theorem DigitsRestore.reread {xs : List Float} (h : DigitsRestore xs)
    (hfinite : ∀ x ∈ xs, x.isFinite = true) : ∀ x ∈ xs, reread x = some x := by
  intro x hx
  rw [← echo_number, ← decode_eq_ok_iff]
  exact h x hx (hfinite x hx)

/-- Values of finite numbers come back from their text, and a text that is read and written twice is
the same the second time. -/
structure RoundTrips {β : Type} (c : Codec β) (numbers : β → List Float) : Prop where
  decode_encode : ∀ value, (∀ x ∈ numbers value, x.isFinite = true) →
    DigitsRestore (numbers value) → c.decode (c.encode value) = .ok value
  recode_recode : ∀ text value, c.decode text = .ok value → DigitsRestore (numbers value) →
    ∃ once, c.recode text = .ok once ∧ c.recode once = .ok once

theorem RoundTrips.of_reread {β : Type} {c : Codec β} {numbers : β → List Float}
    (hback : ∀ value, (∀ x ∈ numbers value, reread x = some x) →
      c.decode (c.encode value) = .ok value)
    (hfinite : ∀ text value, c.decode text = .ok value →
      ∀ x ∈ numbers value, x.isFinite = true) : RoundTrips c numbers where
  decode_encode value hvalue hdigits := hback value (hdigits.reread hvalue)
  recode_recode text value htext hdigits := by
    have hvalue := hback value (hdigits.reread (hfinite text value htext))
    refine ⟨c.encode value, ?_, ?_⟩
    · rw [recode, htext]
      rfl
    · rw [recode, hvalue]
      rfl

inductive Kind where
  | record (k : Record)
  | sign

namespace Kind

@[reducible] def Value : Kind → Type
  | record k => k.Value
  | sign => Sign

def codec : (k : Kind) → Codec k.Value
  | record k => k.codec
  | sign => Codec.sign

def numbers : (k : Kind) → k.Value → List Float
  | record k, r => k.numbers r
  | sign, _ => []

theorem roundTrips (k : Kind) : RoundTrips k.codec k.numbers := by
  cases k with
  | record k =>
    refine .of_reread (fun r hreread => ?_) fun text r htext => Record.isFinite_of_decode htext
    have hdecode := Record.decode_of_arranges hreread .nil .nil .nil
      (k.lawful.arranges_plainMembers (k.fields r))
    rw [List.nil_append, List.append_nil] at hdecode
    change k.codec.decode (k.codec.encode r) = .ok r
    rw [Record.encode_eq, hdecode]
  | sign =>
    refine .of_reread (fun sign _ => ?_) fun text sign _ => List.forall_mem_nil _
    cases sign <;> rfl

/-- A reply with characters that have to be escaped, and a number that no fraction of powers of two
is equal to. -/
def sampleReply : ProgramResponse :=
  { success := true, message := "\"a\\b\"\n\x01é", optimalValue := some 0.1,
    solution := [1.5, -0.0], slack := none }

/-- A request without keys, which leaves out the last field. -/
def sampleElements : String := " [[1, 2.5], [[1], []], [1e1], [\"<=\", \x7b\"=\": null\x7d]] "

theorem sample_roundTrips :
    ProgramResponse.codec.decode (ProgramResponse.codec.encode sampleReply) = .ok sampleReply ∧
      ∃ once, ProgramRequest.codec.recode sampleElements = .ok once ∧
        ProgramRequest.codec.recode once = .ok once := by
  constructor
  · exact (roundTrips (.record .programResponse)).decode_encode sampleReply (by decide +kernel)
      (by decide +kernel)
  · have hnumbers : (ProgramRequest.codec.decode sampleElements).toOption.map
        (numbers (.record .programRequest)) = some [1, 2.5, 1, 10] := by
      decide +kernel
    obtain ⟨r, hr, hdigits⟩ := exists_ok_of_map hnumbers
    refine (roundTrips (.record .programRequest)).recode_recode sampleElements r hr ?_
    rw [hdigits]
    decide +kernel

end Kind

namespace Record

/-- A record is written as an object of its members. It comes back from any text of an object that
its members arrange, with blanks anywhere, and a text that gives a field twice is refused. -/
theorem decode_objectText (k : Record) :
    (∀ r, k.codec.encode r = String.ofList (objectText [] (k.schema.plainMembers (k.fields r)))) ∧
    (∀ (r : k.Value) (before lead after : List Char) (members : List Member),
      (∀ x ∈ k.numbers r, x.isFinite = true) → DigitsRestore (k.numbers r) →
      Blanks before → Blanks lead → Blanks after → k.schema.Arranges (k.fields r) members →
      k.codec.decode (String.ofList (before ++ (objectText lead members ++ after))) = .ok r) ∧
    ∀ (before lead after : List Char) (members : List Member) (key : String),
      Blanks before → Blanks lead → (∀ m ∈ members, m.Valid) → key ∈ k.schema.keys →
      2 ≤ (members.map (·.name)).count key →
      ∃ fault, k.codec.decode (String.ofList (before ++ (objectText lead members ++ after))) =
        .error fault := by
  refine ⟨k.encode_eq, ?_, ?_⟩
  · intro r before lead after members hfinite hdigits hbefore hlead hafter hmembers
    exact decode_of_arranges (hdigits.reread hfinite) hbefore hlead hafter hmembers
  · intro before lead after members key hbefore hlead hvalid hkey htwice
    exact decode_of_repeated hbefore hlead hvalid hkey htwice

def sampleRequest : ProgramRequest := { objective := [2], rhs := [0.5] }

def sampleRhs : Member := .plain "rhs" ['[', '0', '.', '5', ']']

/-- A member that is none of the fields. -/
def sampleNote : Member :=
  { Member.plain "note" ['[', '"', '\x7d', '"', ']'] with
    before := [' '], text := ['[', ' ', '"', '\x7d', '"', ']'], after := [' '], gap := ['\t'] }

def sampleObjective : Member := .plain "objective" ['[', '2', '.', '0', ']']

def sampleObject : String :=
  "\n\x7b \"rhs\":[0.5],\"note\"\t: [ \"\x7d\"] ,\"objective\":[2.0]\x7d "

def sampleTwice : String := "\x7b\"rhs\":[0.5],\"rhs\":[0.5]\x7d"

theorem sampleNote_valid : sampleNote.Valid where
  before := by decide +kernel
  after := by decide +kernel
  lead := .nil
  gap := by decide +kernel
  spells := spells_write "note".toList
  spaced := @Spaced.array [' '] [.plain ['"', '\x7d', '"']] (by decide +kernel)
    (List.forall_mem_singleton.mpr ⟨.nil, .nil⟩)
    (List.forall_mem_singleton.mpr (.scalar (isScalar_writeString "\x7d")))

theorem sampleRequest_arranges :
    programRequest.schema.Arranges (programRequest.fields sampleRequest)
      [sampleRhs, sampleNote, sampleObjective] := by
  have hplain {key : String} {compact : List Char} (hmem : (key, compact) ∈
      programRequest.schema.members (programRequest.fields sampleRequest)) :
      (Member.plain key compact).Valid :=
    .plain key (programRequest.lawful.isCompact_of_mem hmem)
  constructor
  case valid =>
    simp only [List.forall_mem_cons]
    exact ⟨hplain (by decide +kernel), sampleNote_valid, hplain (by decide +kernel),
      List.forall_mem_nil _⟩
  case known => decide +kernel
  case once => decide +kernel
  case covers =>
    refine ⟨.inl ?_, .inr rfl, .inl ?_, .inr rfl, .inr rfl, trivial⟩
    · decide +kernel
    · decide +kernel

theorem sample_decode_objectText :
    ProgramRequest.codec.decode sampleObject = .ok sampleRequest ∧
      ∃ fault, ProgramRequest.codec.decode sampleTwice = .error fault := by
  obtain ⟨-, hdecode, htwice⟩ := decode_objectText programRequest
  have harranges := sampleRequest_arranges
  constructor
  · have htext : sampleObject = String.ofList
        (['\n'] ++ (objectText [' '] [sampleRhs, sampleNote, sampleObjective] ++ [' '])) := by
      decide +kernel
    rw [htext]
    exact hdecode sampleRequest ['\n'] [' '] [' '] _ (by decide +kernel) (by decide +kernel)
      (by decide +kernel) (by decide +kernel) (by decide +kernel) harranges
  · have htext : sampleTwice =
        String.ofList ([] ++ (objectText [] [sampleRhs, sampleRhs] ++ [])) := by
      decide +kernel
    have hvalid : ∀ m ∈ [sampleRhs, sampleRhs], m.Valid := by
      have hrhs := (List.forall_mem_cons.mp harranges.valid).1
      simpa using hrhs
    rw [htext]
    exact htwice [] [] [] _ "rhs" .nil .nil hvalid (by decide +kernel) (by decide +kernel)

end Record

end LeastCost.Wire
