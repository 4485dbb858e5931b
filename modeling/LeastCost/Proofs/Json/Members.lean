import LeastCost.Proofs.Json.Laws
import LeastCost.Proofs.Json.Records

/-!
# Members in any order

An object is read member by member. Members with the keys of fields may come in any order and may
be left out where the field has a value for that case; others are passed over. A field that is
given twice makes reading fail, whatever its values are.
-/

namespace LeastCost.Json

/-- A member of an object, with the text that its key stands for. -/
structure Member extends Entry where
  name : String

def Member.plain (name : String) (text : List Char) : Member :=
  { Item.plain text with
    lead := [], key := name.toList.flatMap writeChar ++ ['"'], gap := [], name }

structure Member.Valid (m : Member) : Prop extends m.toItem.Around where
  lead : Blanks m.lead
  spells : Spells m.key m.name.toList
  gap : Blanks m.gap
  spaced : Spaced m.compact m.text

theorem Member.Valid.plain {text : List Char} (name : String) (h : IsCompact text) :
    (Member.plain name text).Valid where
  before := .nil
  after := .nil
  lead := .nil
  gap := .nil
  spells := spells_write name.toList
  spaced := h

theorem Member.Valid.readKey_eq {m : Member} (h : m.Valid) (following : List Char) :
    readKey (m.spacedMember ++ following) =
      .ok (m.name, m.gap ++ ':' :: (m.spaced ++ following)) := by
  let behind := m.gap ++ ':' :: (m.spaced ++ following)
  have hbody : stringBody ((m.key ++ behind).length + 1) (m.key ++ behind) =
      .ok (m.name.toList, behind) := by
    refine h.spells.reads behind ?_
    rw [List.length_append]
    omega
  have hmark : mark '"' (m.lead ++ '"' :: (m.key ++ behind)) = .ok (m.key ++ behind) :=
    mark_blanks h.lead (by decide)
  have hwhole : m.spacedMember ++ following = m.lead ++ '"' :: (m.key ++ behind) := by
    simp [Entry.spacedMember, behind]
  simp only [hwhole, readKey, hmark, readString, hbody, bind, Except.bind, String.ofList_toList]
  rfl

/-- An object with blanks behind its brace. -/
def objectText (lead : List Char) (members : List Member) : List Char :=
  '\x7b' :: (lead ++ (commaSeparated (members.map (·.spacedMember)) ++ ['\x7d']))

namespace Schema

variable {s : Schema} {values : s.Value} {keys : List String} {key : String}

/-- The members of a record: keys, and values without blanks. -/
def members : (s : Schema) → s.Value → List (String × List Char)
  | done, _ => []
  | field _ head rest, (value, values) =>
    (head.key, head.codec.write value) :: members rest values

/-- A way to list the numbers in the value of each field. -/
@[reducible] def Numbers : Schema → Type
  | done => Unit
  | field β _ rest => (β → List Float) × Numbers rest

def numbersOf : (s : Schema) → s.Numbers → s.Value → List Float
  | done, _, _ => []
  | field _ _ rest, (numbers, others), (value, values) =>
    numbers value ++ numbersOf rest others values

/-- The codecs of the fields are lawful, the values for fields not given are finite, and no two
fields have the same key. -/
def Lawful : (s : Schema) → s.Numbers → Prop
  | done, _ => True
  | field _ head rest, (numbers, others) =>
    (head.codec.Lawful numbers ∧ head.key ∉ rest.keys ∧
      (∀ value ∈ head.whenAbsent, ∀ x ∈ numbers value, x.isFinite = true) ∧
      ∀ value ∈ head.whenShort, ∀ x ∈ numbers value, x.isFinite = true) ∧ Lawful rest others

/-- The slots when the fields with these keys have been met. -/
def seen : (s : Schema) → s.Value → List String → s.Slots
  | done, _, _ => ()
  | field _ head rest, (value, values), keys =>
    (if head.key ∈ keys then some value else none, seen rest values keys)

/-- Every field has one of these keys, or the value that stands for a member left out. -/
def Covers : (s : Schema) → s.Value → List String → Prop
  | done, _, _ => True
  | field _ head rest, (value, values), keys =>
    (head.key ∈ keys ∨ head.whenAbsent = some value) ∧ Covers rest values keys

section Lawful

variable {β : Type} {c : Codec β} {f : β → List Float} {rest : Schema} {others : rest.Numbers}

theorem Lawful.done : Lawful .done () := trivial

theorem Lawful.required (h : c.Lawful f) (hkey : key ∉ rest.keys) (hrest : rest.Lawful others) :
    Lawful (.field β (.required key c) rest) (f, others) :=
  ⟨⟨h, hkey, by simp [Field.required], by simp [Field.required]⟩, hrest⟩

theorem Lawful.withDefault {value : β} (h : c.Lawful f) (hkey : key ∉ rest.keys)
    (hvalue : ∀ x ∈ f value, x.isFinite = true) (hrest : rest.Lawful others) :
    Lawful (.field β (.withDefault key c value) rest) (f, others) :=
  ⟨⟨h, hkey, by simpa [Field.withDefault] using hvalue, by simpa [Field.withDefault] using hvalue⟩,
    hrest⟩

theorem Lawful.optional {f : Option β → List Float} (h : c.optional.Lawful f)
    (hkey : key ∉ rest.keys) (hnone : ∀ x ∈ f none, x.isFinite = true)
    (hrest : rest.Lawful others) : Lawful (.field (Option β) (.optional key c) rest) (f, others) :=
  ⟨⟨h, hkey, by simpa [Field.optional] using hnone, by simp [Field.optional]⟩, hrest⟩

end Lawful

section Slots

theorem vacant_eq_seen (s : Schema) (values : s.Value) : s.vacant = s.seen values [] := by
  induction s with
  | done => rfl
  | field β head rest ih =>
    simp only [vacant, seen, ih values.2, List.not_mem_nil, if_false]

theorem seen_congr {keys' : List String} (h : ∀ key ∈ s.keys, key ∈ keys ↔ key ∈ keys') :
    s.seen values keys = s.seen values keys' := by
  induction s with
  | done => rfl
  | field β head rest ih =>
    obtain ⟨hhead, hrest⟩ := List.forall_mem_cons.mp h
    simp only [seen, hhead, ih hrest]

theorem isMet?_seen (s : Schema) (values : s.Value) (keys : List String) (key : String) :
    s.isMet? (s.seen values keys) key =
      if key ∈ s.keys then some (decide (key ∈ keys)) else none := by
  induction s with
  | done => rfl
  | field β head rest ih =>
    simp only [seen, isMet?, Schema.keys, List.mem_cons]
    by_cases hkey : head.key = key
    · subst hkey
      by_cases hmem : head.key ∈ keys <;> simp [hmem]
    · simp [hkey, Ne.symm hkey, ih values.2]

theorem complete_seen (h : s.Covers values keys) :
    s.complete (s.seen values keys) = .ok values := by
  induction s with
  | done => rfl
  | field β head rest ih =>
    obtain ⟨value, values⟩ := values
    obtain ⟨hhead, hrest⟩ := h
    have hslot : (if head.key ∈ keys then some value else none).or head.whenAbsent =
        some value := by
      by_cases hmem : head.key ∈ keys
      · simp [hmem]
      · simpa [hmem] using hhead
    simp only [seen, complete, hslot, ih hrest]
    rfl

theorem isSome_isMet? (s : Schema) (slots : s.Slots) (key : String) :
    (s.isMet? slots key).isSome ↔ key ∈ s.keys := by
  induction s with
  | done => simp [isMet?, Schema.keys]
  | field β head rest ih =>
    simp only [isMet?, Schema.keys, List.mem_cons]
    by_cases hkey : head.key = key
    · simp [hkey]
    · simp [hkey, Ne.symm hkey, ih slots.2]

end Slots

section Fields

variable {numbers : s.Numbers} {gap compact text rest : List Char}

theorem map_fst_members (s : Schema) (values : s.Value) :
    (s.members values).map Prod.fst = s.keys := by
  induction s with
  | done => rfl
  | field β head rest ih => exact congrArg (head.key :: ·) (ih values.2)

theorem mem_keys_of_mem_members (h : (key, compact) ∈ s.members values) : key ∈ s.keys :=
  map_fst_members s values ▸ List.mem_map_of_mem h

theorem writeMembers_eq (s : Schema) (values : s.Value) :
    s.writeMembers values =
      (s.members values).map fun member => writeString member.1 ++ ':' :: member.2 := by
  induction s with
  | done => rfl
  | field β head rest ih => exact congrArg (_ :: ·) (ih values.2)

/-- The text of a field, with blanks put into it, fills its slot. -/
theorem Lawful.readSlot_seen (h : s.Lawful numbers)
    (hvalues : ∀ x ∈ s.numbersOf numbers values, Codec.reread x = some x)
    (hmem : (key, compact) ∈ s.members values) (hgap : Blanks gap) (hspaced : Spaced compact text)
    (hrest : Delimits rest) :
    s.readSlot (s.seen values keys) key (gap ++ (text ++ rest)) =
      .ok (s.seen values (key :: keys), rest) := by
  induction s with
  | done => cases hmem
  | field β head tail ih =>
    obtain ⟨value, values⟩ := values
    obtain ⟨⟨hlawful, hfresh, -, -⟩, htail⟩ := h
    obtain ⟨hvalue, hothers⟩ := List.forall_mem_append.mp hvalues
    by_cases hkey : head.key = key
    · subst hkey
      have hcompact : compact = head.codec.write value := by
        rcases List.mem_cons.mp hmem with heq | hmem
        · exact (Prod.mk.inj heq).2
        · exact absurd (mem_keys_of_mem_members hmem) hfresh
      have hread : head.codec.read (gap ++ (text ++ rest)) = .ok (value, rest) := by
        rw [hlawful.blanks hgap]
        exact hlawful.recovers value hvalue text (hcompact ▸ hspaced) rest hrest
      have hseen : tail.seen values keys = tail.seen values (head.key :: keys) := by
        refine seen_congr fun key hmem => ?_
        have hne : key ≠ head.key := fun heq => hfresh (heq ▸ hmem)
        simp [hne]
      simp only [seen, readSlot, hread, hseen, List.mem_cons_self, if_true, bind, Except.bind]
      rfl
    · have hmem' : (key, compact) ∈ tail.members values := by
        refine (List.mem_cons.mp hmem).resolve_left fun heq => ?_
        exact hkey (Prod.mk.inj heq).1.symm
      have hiff : head.key ∈ key :: keys ↔ head.key ∈ keys := by simp [hkey]
      simp only [seen, readSlot, if_neg hkey, ih htail hothers hmem', hiff, bind, Except.bind]
      rfl

/-- What is read of a field ends where its text ends, and the field counts as met from then on. -/
theorem Lawful.readSlot_eq_ok (h : s.Lawful numbers) (hkey : key ∈ s.keys) {slots slots' : s.Slots}
    (hread : s.readSlot slots key text = .ok (slots', rest)) :
    (∃ n, Passes n .value text rest) ∧
      ∀ key', s.isMet? slots' key' = if key' = key then some true else s.isMet? slots key' := by
  induction s with
  | done => cases hkey
  | field β head tail ih =>
    obtain ⟨⟨hlawful, -⟩, htail⟩ := h
    by_cases heq : head.key = key
    · subst heq
      rw [readSlot, if_pos rfl] at hread
      obtain ⟨⟨value, behind⟩, hvalue, hread⟩ := bind_eq_ok.mp hread
      obtain ⟨rfl, rfl⟩ := Prod.mk.inj (Except.ok.inj hread)
      refine ⟨hlawful.passes _ value _ hvalue, fun key' => ?_⟩
      by_cases hkey' : head.key = key'
      · simp [isMet?, hkey']
      · simp [isMet?, hkey', Ne.symm hkey']
    · rw [readSlot, if_neg heq] at hread
      obtain ⟨⟨others, behind⟩, hothers, hread⟩ := bind_eq_ok.mp hread
      obtain ⟨rfl, rfl⟩ := Prod.mk.inj (Except.ok.inj hread)
      obtain ⟨hpasses, hmet⟩ :=
        ih htail ((List.mem_cons.mp hkey).resolve_left (Ne.symm heq)) hothers
      refine ⟨hpasses, fun key' => ?_⟩
      by_cases hkey' : head.key = key'
      · have hne : key' ≠ key := fun h => heq (hkey'.trans h)
        simp [isMet?, hkey', hne]
      · simp [isMet?, hkey', hmet]

end Fields

section Reading

variable {numbers : s.Numbers} {gap rest : List Char}

theorem nextKey_end (isFirst : Bool) (h : Blanks gap) :
    nextKey isFirst (gap ++ '\x7d' :: rest) = .ok (none, rest) := by
  rw [nextKey, skipBlanks_blanks h (by decide)]
  rfl

theorem nextKey_member {m : Member} (isFirst : Bool) (hgap : Blanks gap) (hm : m.Valid)
    (following : List Char) :
    nextKey isFirst (gap ++ (separator isFirst ++ (m.spacedMember ++ following))) =
      .ok (some m.name, m.gap ++ ':' :: (m.spaced ++ following)) := by
  have hkey := hm.readKey_eq following
  cases isFirst with
  | true =>
    have hquote : ∃ tail, skipBlanks (m.spacedMember ++ following) = '"' :: tail := by
      refine ⟨m.key ++ (m.gap ++ ':' :: (m.spaced ++ following)), ?_⟩
      simpa [Entry.spacedMember] using skipBlanks_blanks hm.lead (by decide)
    obtain ⟨tail, hquote⟩ := hquote
    have hkey' : readKey ('"' :: tail) = readKey (m.spacedMember ++ following) := by
      rw [← hquote, readKey, readKey, mark, mark, skipBlanks_skipBlanks]
    change nextKey true (gap ++ (m.spacedMember ++ following)) = _
    rw [nextKey, skipBlanks_append hgap, hquote]
    change (readKey ('"' :: tail) >>= fun found => pure (some found.1, found.2)) = _
    rw [hkey', hkey]
    rfl
  | false =>
    change nextKey false (gap ++ ',' :: (m.spacedMember ++ following)) = _
    rw [nextKey, skipBlanks_blanks hgap (by decide)]
    change (readKey (m.spacedMember ++ following) >>= fun found =>
      pure (some found.1, found.2)) = _
    rw [hkey]
    rfl

theorem readMembers_cons {m : Member} (fuel : Nat) (isFirst : Bool) (slots : s.Slots)
    (hgap : Blanks gap) (hm : m.Valid) (following : List Char) :
    s.readMembers (fuel + 1) isFirst slots
        (gap ++ (separator isFirst ++ (m.spacedMember ++ following))) =
      match s.isMet? slots m.name with
      | some true => .error .mismatch
      | some false => s.readSlot slots m.name (m.spaced ++ following) >>= fun found =>
          s.readMembers fuel false found.1 found.2
      | none => skipValue (m.spaced ++ following) >>= s.readMembers fuel false slots := by
  have hcolon : mark ':' (m.gap ++ ':' :: (m.spaced ++ following)) = .ok (m.spaced ++ following) :=
    mark_blanks hm.gap (by decide)
  rw [readMembers, nextKey_member isFirst hgap hm following]
  simp only [hcolon, bind, Except.bind]
  cases s.isMet? slots m.name with
  | none => rfl
  | some isMet => cases isMet <;> rfl

theorem count_le_of_cons {names keys : List String} {name key : String}
    (h : (name :: names).count key ≤ if key ∈ keys then 0 else 1) :
    names.count key ≤ if key ∈ name :: keys then 0 else 1 := by
  by_cases heq : key = name
  · subst heq
    rw [List.count_cons_self] at h
    rw [if_pos List.mem_cons_self]
    split at h <;> omega
  · simpa [heq, Ne.symm heq] using h

/-- Members are read one after the other, each field when it has not been met before. -/
theorem Lawful.readMembers_seen (h : s.Lawful numbers)
    (hvalues : ∀ x ∈ s.numbersOf numbers values, Codec.reread x = some x) (rest : List Char)
    (members : List Member) : ∀ (keys : List String) (gap : List Char) (fuel : Nat)
      (isFirst : Bool), Blanks gap → (∀ m ∈ members, m.Valid) →
      (∀ m ∈ members, m.name ∈ s.keys → (m.name, m.compact) ∈ s.members values) →
      (∀ key ∈ s.keys, (members.map (·.name)).count key ≤ if key ∈ keys then 0 else 1) →
      members.length < fuel →
      s.readMembers fuel isFirst (s.seen values keys)
        (gap ++ (separated isFirst (members.map (·.spacedMember)) ++ '\x7d' :: rest)) =
          .ok (s.seen values (members.map (·.name) ++ keys), rest) := by
  -- On the members still to be read. The slots are those of the fields with keys among `keys`, and
  -- no member has one of these keys again.
  induction members with
  | nil =>
    intro keys gap fuel isFirst hgap _ _ _ hfuel
    obtain ⟨fuel, rfl⟩ := Nat.exists_eq_succ_of_ne_zero (Nat.ne_zero_of_lt hfuel)
    have hend : nextKey isFirst (gap ++ '\x7d' :: rest) = .ok (none, rest) :=
      nextKey_end isFirst hgap
    simp only [List.map_nil, separated, List.nil_append, readMembers, hend, bind, Except.bind]
    rfl
  | cons m members ih =>
    intro keys gap fuel isFirst hgap hvalid hknown honce hfuel
    obtain ⟨fuel, rfl⟩ := Nat.exists_eq_succ_of_ne_zero (Nat.ne_zero_of_lt hfuel)
    obtain ⟨hm, hvalid⟩ := List.forall_mem_cons.mp hvalid
    obtain ⟨hmember, hknown⟩ := List.forall_mem_cons.mp hknown
    let following := separated false (members.map (·.spacedMember)) ++ '\x7d' :: rest
    have hfollowing : Delimits following := delimits_separated _ (delimits_brace rest)
    have hwhole : separated isFirst ((m :: members).map (·.spacedMember)) ++ '\x7d' :: rest =
        separator isFirst ++ (m.spacedMember ++ following) :=
      separated_append isFirst _ _ _
    have hrest := ih (m.name :: keys) m.after fuel false hm.after hvalid hknown
      (fun key hkey => count_le_of_cons (honce key hkey)) (Nat.lt_of_succ_lt_succ hfuel)
    have hnames : s.seen values (members.map (·.name) ++ m.name :: keys) =
        s.seen values ((m :: members).map (·.name) ++ keys) := by
      refine seen_congr fun key _ => ?_
      simp only [List.map_cons, List.cons_append, List.mem_append, List.mem_cons]
      tauto
    rw [hwhole, readMembers_cons fuel isFirst _ hgap hm, isMet?_seen, ← hnames]
    by_cases hkey : m.name ∈ s.keys
    · have hmet : m.name ∉ keys := by
        intro hmem
        have hcount := honce m.name hkey
        simp [hmem] at hcount
      have hslot : s.readSlot (s.seen values keys) m.name (m.spaced ++ following) =
          .ok (s.seen values (m.name :: keys), m.after ++ following) := by
        rw [Item.spaced, List.append_assoc, List.append_assoc]
        exact h.readSlot_seen hvalues (hmember hkey) hm.before hm.spaced
          (hfollowing.blanks hm.after)
      simp only [hkey, hmet, if_true, decide_false, hslot, bind, Except.bind]
      exact hrest
    · have hskip : skipValue (m.spaced ++ following) = .ok (m.after ++ following) :=
        Item.skipValue_eq hm.toAround hm.spaced hfollowing
      have hsame : s.seen values (m.name :: keys) = s.seen values keys := by
        refine seen_congr fun key hmem => ?_
        have hne : key ≠ m.name := fun heq => hkey (heq ▸ hmem)
        simp [hne]
      simp only [hkey, if_false, hskip, bind, Except.bind]
      rw [← hsame]
      exact hrest

/-- Members that are read hold each field at most once, and none that was met before. -/
theorem Lawful.count_of_readMembers (h : s.Lawful numbers) {members : List Member}
    (hvalid : ∀ m ∈ members, m.Valid) {slots slots' : s.Slots} {fuel : Nat} {isFirst : Bool}
    {behind : List Char} (hgap : Blanks gap)
    (hread : s.readMembers fuel isFirst slots
      (gap ++ (separated isFirst (members.map (·.spacedMember)) ++ '\x7d' :: rest)) =
        .ok (slots', behind)) (hkey : key ∈ s.keys) :
    (members.map (·.name)).count key ≤ if s.isMet? slots key = some true then 0 else 1 := by
  -- A codec may read any text here. That it stops where the value of the member ends is due to
  -- passing over both from the same place.
  induction members generalizing gap slots fuel isFirst with
  | nil => exact Nat.zero_le _
  | cons m members ih =>
    cases fuel with
    | zero => cases hread
    | succ fuel =>
      obtain ⟨hm, hvalid⟩ := List.forall_mem_cons.mp hvalid
      let following := separated false (members.map (·.spacedMember)) ++ '\x7d' :: rest
      have hfollowing : Delimits following := delimits_separated _ (delimits_brace rest)
      have hwhole : separated isFirst ((m :: members).map (·.spacedMember)) ++ '\x7d' :: rest =
          separator isFirst ++ (m.spacedMember ++ following) :=
        separated_append isFirst _ _ _
      rw [hwhole, readMembers_cons fuel isFirst _ hgap hm] at hread
      cases hmet : s.isMet? slots m.name with
      | none =>
        have hskip : skipValue (m.spaced ++ following) = .ok (m.after ++ following) :=
          Item.skipValue_eq hm.toAround hm.spaced hfollowing
        simp only [hmet, hskip, bind, Except.bind] at hread
        have hne : m.name ≠ key := by
          rintro rfl
          have hsome := (isSome_isMet? s slots m.name).mpr hkey
          simp [hmet] at hsome
        simpa [hne] using ih hvalid hm.after hread
      | some isMet =>
        cases isMet with
        | true =>
          simp only [hmet] at hread
          cases hread
        | false =>
          simp only [hmet] at hread
          have hname : m.name ∈ s.keys := (isSome_isMet? s slots m.name).mp (by simp [hmet])
          obtain ⟨⟨found, mid⟩, hslot, hread⟩ := bind_eq_ok.mp hread
          obtain ⟨⟨n, hpasses⟩, hisMet⟩ := h.readSlot_eq_ok hname hslot
          obtain ⟨k, -, hpasses'⟩ :=
            m.toItem.passes hm.toAround hm.spaced.passable hfollowing
          obtain rfl := hpasses.unique hpasses'
          have hcount := ih hvalid hm.after hread
          rw [hisMet] at hcount
          by_cases heq : key = m.name
          · subst heq
            simpa [hmet] using hcount
          · simpa [heq, Ne.symm heq] using hcount

/-- The members make up an object for the record. Each field has its text, with blanks put into it,
and is given once, or it is left out and has the value for that case. -/
structure Arranges (s : Schema) (values : s.Value) (members : List Member) : Prop where
  valid : ∀ m ∈ members, m.Valid
  known : ∀ m ∈ members, m.name ∈ s.keys → (m.name, m.compact) ∈ s.members values
  once : ∀ key ∈ s.keys, (members.map (·.name)).count key ≤ 1
  covers : s.Covers values (members.map (·.name))

theorem read_objectText (s : Schema) (lead : List Char) (members : List Member)
    (rest : List Char) : ∃ fuel > members.length, s.codec.read (objectText lead members ++ rest) =
      s.readMembers fuel true s.vacant
        (lead ++ (separated true (members.map (·.spacedMember)) ++ '\x7d' :: rest)) >>= fun found =>
          s.complete found.1 >>= fun values => pure (values, found.2) := by
  let inner := lead ++ (separated true (members.map (·.spacedMember)) ++ '\x7d' :: rest)
  have hfuel : inner.length + 1 > members.length := by
    have hlength := length_le_length_separated (members.map (·.spacedMember))
    simp only [List.length_map] at hlength
    simp only [inner, List.length_append, List.length_cons]
    omega
  have hwhole : objectText lead members ++ rest = '\x7b' :: inner := by
    simp [objectText, commaSeparated_eq, inner]
  refine ⟨inner.length + 1, hfuel, ?_⟩
  rw [hwhole]
  rfl

theorem read_blanks (hgap : Blanks gap) (text : List Char) :
    s.codec.read (gap ++ text) = s.codec.read text := by
  simp only [codec, skipBlanks_append hgap]

theorem Lawful.read_arranged (h : s.Lawful numbers)
    (hvalues : ∀ x ∈ s.numbersOf numbers values, Codec.reread x = some x) {lead : List Char}
    (hlead : Blanks lead) {members : List Member} (hmembers : s.Arranges values members)
    (rest : List Char) : s.codec.read (objectText lead members ++ rest) = .ok (values, rest) := by
  obtain ⟨fuel, hfuel, hread⟩ := read_objectText s lead members rest
  have hslots := h.readMembers_seen hvalues rest members [] lead fuel true hlead hmembers.valid
    hmembers.known (by simpa using hmembers.once) hfuel
  rw [← vacant_eq_seen, List.append_nil] at hslots
  simp only [hread, hslots, bind, Except.bind, complete_seen hmembers.covers]
  rfl

theorem Lawful.read_repeated (h : s.Lawful numbers) {lead : List Char} (hlead : Blanks lead)
    {members : List Member} (hvalid : ∀ m ∈ members, m.Valid) (hkey : key ∈ s.keys)
    (htwice : 2 ≤ (members.map (·.name)).count key) (rest : List Char) :
    ∃ fault, s.codec.read (objectText lead members ++ rest) = .error fault := by
  obtain ⟨fuel, -, hread⟩ := read_objectText s lead members rest
  rw [hread]
  cases hslots : s.readMembers fuel true s.vacant
      (lead ++ (separated true (members.map (·.spacedMember)) ++ '\x7d' :: rest)) with
  | error fault => exact ⟨fault, rfl⟩
  | ok found =>
    have hcount := h.count_of_readMembers hvalid hlead hslots hkey
    have hle : (members.map (·.name)).count key ≤ 1 := by
      refine hcount.trans ?_
      split <;> omega
    omega

end Reading

section Written

variable {numbers : s.Numbers}

theorem Lawful.nodup (h : s.Lawful numbers) : s.keys.Nodup := by
  induction s with
  | done => exact List.nodup_nil
  | field β head rest ih => exact List.nodup_cons.mpr ⟨h.1.2.1, ih h.2⟩

theorem Lawful.isCompact_of_mem (h : s.Lawful numbers) {compact : List Char}
    (hmem : (key, compact) ∈ s.members values) : IsCompact compact := by
  induction s with
  | done => cases hmem
  | field β head rest ih =>
    rcases List.mem_cons.mp hmem with heq | hmem
    · obtain ⟨rfl, rfl⟩ := Prod.mk.inj heq
      exact h.1.1.compact values.1
    · exact ih h.2 hmem

theorem covers_of_subset (h : s.keys ⊆ keys) : s.Covers values keys := by
  induction s with
  | done => trivial
  | field β head rest ih =>
    obtain ⟨hhead, hrest⟩ := List.cons_subset.mp h
    exact ⟨Or.inl hhead, ih hrest⟩

def plainMembers (s : Schema) (values : s.Value) : List Member :=
  (s.members values).map fun member => .plain member.1 member.2

theorem map_name_plainMembers (s : Schema) (values : s.Value) :
    (s.plainMembers values).map (·.name) = s.keys := by
  rw [plainMembers, List.map_map]
  exact map_fst_members s values

theorem write_eq (s : Schema) (values : s.Value) :
    s.codec.write values = objectText [] (s.plainMembers values) := by
  have hmembers : s.writeMembers values = (s.plainMembers values).map (·.spacedMember) := by
    rw [writeMembers_eq, plainMembers, List.map_map]
    refine List.map_congr_left fun member _ => ?_
    simp [Member.plain, Entry.spacedMember, Item.spaced, Item.plain, writeString]
  change '\x7b' :: (commaSeparated (s.writeMembers values) ++ ['\x7d']) = _
  rw [hmembers]
  rfl

theorem Lawful.arranges_plainMembers (h : s.Lawful numbers) (values : s.Value) :
    s.Arranges values (s.plainMembers values) where
  valid := List.forall_mem_map.mpr fun _ hmem => .plain _ (h.isCompact_of_mem hmem)
  known := List.forall_mem_map.mpr fun member hmem _ => hmem
  once key _ := by
    rw [map_name_plainMembers]
    exact List.nodup_iff_count_le_one.mp h.nodup key
  covers := by
    rw [map_name_plainMembers]
    exact covers_of_subset (List.Subset.refl _)

theorem Lawful.read_foreign (h : s.Lawful numbers)
    (hvalues : ∀ x ∈ s.numbersOf numbers values, Codec.reread x = some x) {members : List Member}
    (hvalid : ∀ m ∈ members, m.Valid) (hforeign : ∀ m ∈ members, m.name ∉ s.keys)
    (rest : List Char) : s.codec.read (objectText [] members ++ rest) =
      s.complete s.vacant >>= fun values => pure (values, rest) := by
  obtain ⟨fuel, hfuel, hread⟩ := read_objectText s [] members rest
  have hcount : ∀ key ∈ s.keys, (members.map (·.name)).count key = 0 := by
    intro key hkey
    refine List.count_eq_zero.mpr fun hmem => ?_
    obtain ⟨m, hm, rfl⟩ := List.mem_map.mp hmem
    exact hforeign m hm hkey
  have hslots := h.readMembers_seen hvalues rest members [] [] fuel true .nil hvalid
    (fun m hm hkey => absurd hkey (hforeign m hm))
    (fun key hkey => (hcount key hkey).le.trans (Nat.zero_le _)) hfuel
  have hseen : s.seen values (members.map (·.name) ++ []) = s.vacant := by
    rw [vacant_eq_seen s values]
    refine seen_congr fun key hkey => ?_
    simpa using List.count_eq_zero.mp (hcount key hkey)
  rw [hseen, ← vacant_eq_seen] at hslots
  rw [hread, hslots]
  rfl

end Written

section Finiteness

variable {numbers : s.Numbers} {slots slots' : s.Slots} {text rest : List Char}

def FiniteSlots : (s : Schema) → s.Numbers → s.Slots → Prop
  | done, _, _ => True
  | field _ _ rest, (numbers, others), (slot, slots) =>
    (∀ value ∈ slot, ∀ x ∈ numbers value, x.isFinite = true) ∧ FiniteSlots rest others slots

theorem finiteSlots_vacant (s : Schema) (numbers : s.Numbers) : s.FiniteSlots numbers s.vacant := by
  induction s with
  | done => trivial
  | field β head rest ih =>
    exact ⟨fun _ hvalue => absurd hvalue (Option.not_mem_none _), ih numbers.2⟩

theorem Lawful.finite_readSlot (h : s.Lawful numbers) (hslots : s.FiniteSlots numbers slots)
    (hread : s.readSlot slots key text = .ok (slots', rest)) : s.FiniteSlots numbers slots' := by
  induction s with
  | done => trivial
  | field β head tail ih =>
    obtain ⟨⟨hlawful, -⟩, htail⟩ := h
    rw [readSlot] at hread
    split at hread
    · obtain ⟨⟨value, behind⟩, hvalue, hread⟩ := bind_eq_ok.mp hread
      obtain ⟨rfl, rfl⟩ := Prod.mk.inj (Except.ok.inj hread)
      exact ⟨by simpa using hlawful.finite text value _ hvalue, hslots.2⟩
    · obtain ⟨⟨others, behind⟩, hothers, hread⟩ := bind_eq_ok.mp hread
      obtain ⟨rfl, rfl⟩ := Prod.mk.inj (Except.ok.inj hread)
      exact ⟨hslots.1, ih htail hslots.2 hothers⟩

theorem Lawful.finite_readMembers (h : s.Lawful numbers) {fuel : Nat} {isFirst : Bool}
    (hslots : s.FiniteSlots numbers slots)
    (hread : s.readMembers fuel isFirst slots text = .ok (slots', rest)) :
    s.FiniteSlots numbers slots' := by
  induction fuel generalizing isFirst slots text with
  | zero => cases hread
  | succ fuel ih =>
    obtain ⟨⟨key?, behind⟩, -, hread⟩ := bind_eq_ok.mp hread
    cases key? with
    | none =>
      obtain ⟨rfl, -⟩ := Prod.mk.inj (Except.ok.inj hread)
      exact hslots
    | some key =>
      dsimp only at hread
      split at hread
      · cases hread
      · obtain ⟨value, -, hread⟩ := bind_eq_ok.mp hread
        obtain ⟨⟨found, mid⟩, hslot, hread⟩ := bind_eq_ok.mp hread
        exact ih (h.finite_readSlot hslots hslot) hread
      · obtain ⟨value, -, hread⟩ := bind_eq_ok.mp hread
        obtain ⟨mid, -, hread⟩ := bind_eq_ok.mp hread
        exact ih hslots hread

theorem Lawful.finite_complete (h : s.Lawful numbers) (hslots : s.FiniteSlots numbers slots)
    (hvalues : s.complete slots = .ok values) :
    ∀ x ∈ s.numbersOf numbers values, x.isFinite = true := by
  induction s with
  | done => exact List.forall_mem_nil _
  | field β head tail ih =>
    obtain ⟨⟨-, -, habsent, -⟩, htail⟩ := h
    obtain ⟨slot, others⟩ := slots
    rw [complete] at hvalues
    split at hvalues
    · next value hvalue =>
      obtain ⟨values, hothers, hvalues⟩ := bind_eq_ok.mp hvalues
      obtain rfl := Except.ok.inj hvalues
      refine List.forall_mem_append.mpr ⟨?_, ih htail hslots.2 hothers⟩
      rcases Option.or_eq_some_iff.mp hvalue with hslot | ⟨-, hdefault⟩
      · exact hslots.1 value hslot
      · exact habsent value hdefault
    · cases hvalues

theorem Lawful.finite_readElements (h : s.Lawful numbers) {isFirst : Bool}
    (hread : s.readElements isFirst text = .ok (values, rest)) :
    ∀ x ∈ s.numbersOf numbers values, x.isFinite = true := by
  induction s generalizing isFirst text rest with
  | done => exact List.forall_mem_nil _
  | field β head tail ih =>
    obtain ⟨⟨hlawful, -, -, hshort⟩, htail⟩ := h
    obtain ⟨⟨isElement, element⟩, -, hread⟩ := bind_eq_ok.mp hread
    cases isElement with
    | true =>
      obtain ⟨⟨value, mid⟩, hvalue, hread⟩ := bind_eq_ok.mp hread
      obtain ⟨⟨others, last⟩, hothers, hread⟩ := bind_eq_ok.mp hread
      obtain ⟨rfl, -⟩ := Prod.mk.inj (Except.ok.inj hread)
      exact List.forall_mem_append.mpr ⟨hlawful.finite _ value mid hvalue, ih htail hothers⟩
    | false =>
      simp only [Bool.false_eq_true, if_false] at hread
      split at hread
      · next value hvalue =>
        obtain ⟨⟨others, last⟩, hothers, hread⟩ := bind_eq_ok.mp hread
        obtain ⟨rfl, -⟩ := Prod.mk.inj (Except.ok.inj hread)
        exact List.forall_mem_append.mpr ⟨hshort value hvalue, ih htail hothers⟩
      · cases hread

/-- The numbers of a record that was read are finite, also where the record was an array. -/
theorem Lawful.finite (h : s.Lawful numbers) (hread : s.codec.read text = .ok (values, rest)) :
    ∀ x ∈ s.numbersOf numbers values, x.isFinite = true := by
  simp only [codec] at hread
  split at hread
  · obtain ⟨⟨slots, behind⟩, hslots, hread⟩ := bind_eq_ok.mp hread
    obtain ⟨values, hvalues, hread⟩ := bind_eq_ok.mp hread
    obtain ⟨rfl, -⟩ := Prod.mk.inj (Except.ok.inj hread)
    exact h.finite_complete (h.finite_readMembers (finiteSlots_vacant s numbers) hslots) hvalues
  · obtain ⟨⟨values, behind⟩, hvalues, hread⟩ := bind_eq_ok.mp hread
    obtain ⟨mid, -, hread⟩ := bind_eq_ok.mp hread
    obtain ⟨rfl, -⟩ := Prod.mk.inj (Except.ok.inj hread)
    exact h.finite_readElements hvalues
  · cases hread

end Finiteness

end Schema

end LeastCost.Json
