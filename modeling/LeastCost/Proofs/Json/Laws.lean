import LeastCost.Proofs.Json.Skipping

/-!
# Lawful codecs

A lawful codec writes JSON without blanks and reads it with blanks anywhere. It leaves the text
where passing over the value would leave it, and the numbers that it reads are finite. Only the
digits of numbers are left to an assumption: a value is recovered if the text of each of its
numbers stands for that number.
-/

namespace LeastCost.Json

section Reading

variable {β : Type} {text rest : List Char}

theorem skipBlanks_skipBlanks (text : List Char) : skipBlanks (skipBlanks text) = skipBlanks text :=
  List.dropWhile_idempotent isBlank text

theorem ok_of_toOption {result : Except Fault β} {value : β} (h : result.toOption = some value) :
    result = .ok value := by
  cases result with
  | error fault => cases h
  | ok found => exact congrArg Except.ok (Option.some.inj h)

end Reading

namespace Codec

variable {β γ : Type} {c : Codec β} {numbers : β → List Float}

/-- The laws of a codec, given the numbers that a value holds. -/
structure Lawful (c : Codec β) (numbers : β → List Float) : Prop where
  compact : ∀ value, IsCompact (c.write value)
  skipBlanks : ∀ text, c.read (skipBlanks text) = c.read text
  recovers : ∀ value, (∀ x ∈ numbers value, reread x = some x) → ∀ text,
    Spaced (c.write value) text → ∀ rest, Delimits rest → c.read (text ++ rest) = .ok (value, rest)
  passes : ∀ text value rest, c.read text = .ok (value, rest) → ∃ n, Passes n .value text rest
  finite : ∀ text value rest, c.read text = .ok (value, rest) →
    ∀ x ∈ numbers value, x.isFinite = true

theorem Lawful.blanks (h : c.Lawful numbers) {gap : List Char} (hgap : Blanks gap)
    (text : List Char) : c.read (gap ++ text) = c.read text := by
  rw [← h.skipBlanks, skipBlanks_append hgap, h.skipBlanks]

theorem Lawful.congr {numbers' : β → List Float} (h : c.Lawful numbers)
    (heq : ∀ value x, x ∈ numbers' value ↔ x ∈ numbers value) : c.Lawful numbers' where
  compact := h.compact
  skipBlanks := h.skipBlanks
  recovers value hvalue := h.recovers value fun x hx => hvalue x ((heq value x).mpr hx)
  passes := h.passes
  finite text value rest hread x hx := h.finite text value rest hread x ((heq value x).mp hx)

section Decoding

variable {text rest : List Char} {value : β}

theorem decode_ofList (h : c.read text = .ok (value, rest)) (hrest : Blanks rest) :
    c.decode (String.ofList text) = .ok value := by
  have hend : Json.skipBlanks rest = [] := List.dropWhile_eq_nil_iff.mpr hrest
  simp only [decode, String.toList_ofList, h, bind, Except.bind, hend, if_true]
  rfl

theorem exists_read {text : String} (h : c.decode text = .ok value) :
    ∃ rest, c.read text.toList = .ok (value, rest) := by
  obtain ⟨⟨found, rest⟩, hread, h⟩ := bind_eq_ok.mp h
  dsimp only at h
  split at h
  · obtain rfl := Except.ok.inj h
    exact ⟨rest, hread⟩
  · cases h

theorem decode_through (c : Codec β) (make : β → γ) (parts : γ → β) (text : String) :
    (c.through make parts).decode text = (c.decode text).map make := by
  have hread : (c.through make parts).read text.toList =
      (c.read text.toList).map fun found => (make found.1, found.2) := by
    change (c.read text.toList >>= fun found => pure (make found.1, found.2)) = _
    cases c.read text.toList <;> rfl
  unfold decode
  rw [hread]
  cases c.read text.toList with
  | error fault => rfl
  | ok found =>
    change (if Json.skipBlanks found.2 = [] then _ else _) = Except.map make (if _ then _ else _)
    split <;> rfl

end Decoding

section Scalars

variable {text rest : List Char} {x : Float}

theorem isCompact_number (x : Float) : IsCompact (number.write x) := by
  by_cases hx : x.isFinite = true
  · rw [number_write hx]
    exact .scalar (.number (Numeral.wellFormed_ofFloat x).isNumber)
  · rw [number_write_of_not_finite hx]
    exact .scalar .null

/-- What is read of a scalar is what it was written for, since no blank stands inside it. -/
theorem recovers_scalar {f : β → Option β} {value : β} (h : c.Echoes f)
    (hscalar : IsScalar (c.write value)) (hvalue : f value = some value)
    (htext : Spaced (c.write value) text) (hrest : Delimits rest) :
    c.read (text ++ rest) = .ok (value, rest) := by
  obtain rfl := htext.eq_of_isScalar hscalar
  refine ok_of_toOption ?_
  rw [h.reads value rest hrest, hvalue]
  rfl

theorem readNumeral_eq_ok {n : Numeral} (h : readNumeral text = .ok (n, x, rest)) :
    Passes 0 .value text rest ∧ x.isFinite = true := by
  unfold readNumeral at h
  dsimp only at h
  split at h
  · next hstarts =>
    obtain ⟨⟨n, rest⟩, hread, h⟩ := bind_eq_ok.mp h
    obtain ⟨x, hx, h⟩ := bind_eq_ok.mp h
    obtain ⟨rfl, heq⟩ := Prod.mk.inj (Except.ok.inj h)
    obtain ⟨rfl, rfl⟩ := Prod.mk.inj heq
    exact ⟨.of_skipBlanks (passes_of_read hstarts hread), Numeral.isFinite_of_toFloat hx⟩
  · cases h

theorem readNumeral_skipBlanks (text : List Char) :
    readNumeral (Json.skipBlanks text) = readNumeral text := by
  rw [readNumeral, readNumeral, skipBlanks_skipBlanks]

theorem lawful_number : number.Lawful fun x => [x] where
  compact := isCompact_number
  skipBlanks text := by
    simp only [number, readNumeral_skipBlanks]
  recovers x hx text htext rest hrest := by
    have hreread : reread x = some x := hx x List.mem_cons_self
    have hfinite : x.isFinite = true := by rw [← isSome_reread, hreread]; rfl
    refine recovers_scalar echoes_number ?_ hreread htext hrest
    rw [number_write hfinite]
    exact .number (Numeral.wellFormed_ofFloat x).isNumber
  passes text x rest h := by
    obtain ⟨⟨n, x, rest⟩, hread, h⟩ := bind_eq_ok.mp h
    obtain ⟨rfl, rfl⟩ := Prod.mk.inj (Except.ok.inj h)
    exact ⟨0, (readNumeral_eq_ok hread).1⟩
  finite text x rest h := by
    obtain ⟨⟨n, x, rest⟩, hread, h⟩ := bind_eq_ok.mp h
    obtain ⟨rfl, rfl⟩ := Prod.mk.inj (Except.ok.inj h)
    simpa using (readNumeral_eq_ok hread).2

theorem lawful_index : index.Lawful fun _ => [] where
  compact value := by
    rw [index_write]
    exact .scalar (.number (wellFormed_indexNumeral value).isNumber)
  skipBlanks text := by
    simp only [index, readNumeral_skipBlanks]
  recovers value _ text htext rest hrest := by
    refine recovers_scalar echoes_index ?_ rfl htext hrest
    rw [index_write]
    exact .number (wellFormed_indexNumeral value).isNumber
  passes text value rest h := by
    obtain ⟨⟨n, x, behind⟩, hread, h⟩ := bind_eq_ok.mp h
    dsimp only at h
    split at h
    · obtain ⟨rfl, rfl⟩ := Prod.mk.inj (Except.ok.inj h)
      exact ⟨0, (readNumeral_eq_ok hread).1⟩
    · cases h
  finite _ _ _ _ := by simp

theorem lawful_flag : flag.Lawful fun _ => [] where
  compact value := by
    cases value with
    | true => exact .scalar .true
    | false => exact .scalar .false
  skipBlanks text := by
    simp only [flag, skipBlanks_skipBlanks]
  recovers value _ text htext rest hrest := by
    refine recovers_scalar echoes_flag ?_ rfl htext hrest
    cases value with
    | true => exact .true
    | false => exact .false
  passes text value rest h := by
    refine ⟨0, .of_skipBlanks ?_⟩
    simp only [flag] at h
    split at h
    · next heq =>
      obtain ⟨rest, hword, h⟩ := bind_eq_ok.mp h
      obtain ⟨-, rfl⟩ := Prod.mk.inj (Except.ok.inj h)
      rw [heq, eq_of_word hword]
      exact fun fuel later => rfl
    · next heq =>
      obtain ⟨rest, hword, h⟩ := bind_eq_ok.mp h
      obtain ⟨-, rfl⟩ := Prod.mk.inj (Except.ok.inj h)
      rw [heq, eq_of_word hword]
      exact fun fuel later => rfl
    · cases h
  finite _ _ _ _ := by simp

theorem isScalar_writeString (text : String) : IsScalar (writeString text) :=
  .string (spells_write text.toList).isQuoted

theorem isQuoted_of_readString {value : String} (h : readString text = .ok (value, rest)) :
    ∃ body, IsQuoted body ∧ text = body ++ rest := by
  obtain ⟨⟨chars, rest⟩, hbody, h⟩ := bind_eq_ok.mp h
  obtain ⟨-, rfl⟩ := Prod.mk.inj (Except.ok.inj h)
  obtain ⟨body, hspells, rfl⟩ := spells_of_stringBody hbody
  exact ⟨body, hspells.isQuoted, rfl⟩

theorem passes_readString {value : String} (h : readString text = .ok (value, rest)) :
    Passes 0 .value ('"' :: text) rest := by
  obtain ⟨body, hquoted, rfl⟩ := isQuoted_of_readString h
  exact passes_string hquoted rest

theorem lawful_string : string.Lawful fun _ => [] where
  compact value := .scalar (isScalar_writeString value)
  skipBlanks text := by
    simp only [string, skipBlanks_skipBlanks]
  recovers value _ text htext rest hrest :=
    recovers_scalar echoes_string (isScalar_writeString value) rfl htext hrest
  passes text value rest h := by
    refine ⟨0, .of_skipBlanks ?_⟩
    simp only [string] at h
    split at h
    · next heq =>
      rw [heq]
      exact passes_readString h
    · cases h
  finite _ _ _ _ := by simp

theorem signOf_symbol (value : Sign) : signOf value.symbol = .ok value := by
  cases value <;> rfl

theorem readString_writeString (value : String) (rest : List Char) :
    ∃ tail, writeString value ++ rest = '"' :: tail ∧ readString tail = .ok (value, rest) :=
  ⟨_, writeString_append value rest, readString_flatMap value rest⟩

theorem eq_of_mark {c : Char} (h : mark c text = .ok rest) :
    Json.skipBlanks text = c :: rest :=
  eq_of_word h

theorem passes_readNull (h : readNull text = .ok rest) : Passes 0 .value text rest := by
  refine .of_skipBlanks ?_
  unfold readNull at h
  split at h
  · next heq =>
    rw [heq, eq_of_word h]
    exact fun fuel later => rfl
  · cases h

theorem skipString_of_readString {value : String} (h : readString text = .ok (value, rest)) :
    skipString text = .ok rest := by
  obtain ⟨body, hquoted, rfl⟩ := isQuoted_of_readString h
  refine hquoted.skips rest ?_
  rw [List.length_append]
  omega

theorem exists_passes_of_skipBlanks (h : ∃ n, Passes n .value (Json.skipBlanks text) rest) :
    ∃ n, Passes n .value text rest := by
  obtain ⟨n, hn⟩ := h
  exact ⟨n, .of_skipBlanks hn⟩

theorem passes_signObject {symbol : String} {behind value : List Char}
    (hkey : readKey text = .ok (symbol, behind)) (hcolon : mark ':' behind = .ok value)
    {behind' : List Char} (hnull : readNull value = .ok behind')
    (hclose : mark '\x7d' behind' = .ok rest) : ∃ n, Passes n .value ('\x7b' :: text) rest := by
  obtain ⟨quoted, hquote, hstring⟩ := bind_eq_ok.mp hkey
  have hskip : skipKey text = .ok value := by
    simp only [skipKey, hquote, skipString_of_readString hstring, hcolon, bind, Except.bind]
  have hmembers : Passes 0 .members behind' rest := by
    refine .of_skipBlanks ?_
    rw [eq_of_mark hclose]
    exact fun fuel later => rfl
  refine ⟨_, .of_step (fun fuel later => ?_) (passes_readNull hnull) hmembers⟩
  rw [skipOwed_object _ _ (eq_of_mark hquote), hskip]
  rfl

theorem lawful_sign : sign.Lawful fun _ => [] where
  compact value := .scalar (isScalar_writeString value.symbol)
  skipBlanks text := by
    simp only [sign, skipBlanks_skipBlanks]
  recovers value _ text htext rest _ := by
    obtain rfl := htext.eq_of_isScalar (isScalar_writeString value.symbol)
    obtain ⟨tail, htail, hread⟩ := readString_writeString value.symbol rest
    change sign.read (writeString value.symbol ++ rest) = _
    rw [htail]
    change (readString tail >>= fun found => signOf found.1 >>= fun sign =>
      pure (sign, found.2)) = _
    rw [hread]
    change (signOf value.symbol >>= fun sign => pure (sign, rest)) = _
    rw [signOf_symbol]
    rfl
  passes text value rest h := by
    refine exists_passes_of_skipBlanks ?_
    simp only [sign] at h
    split at h
    · cases h
    · next heq =>
      obtain ⟨⟨symbol, rest⟩, hstring, h⟩ := bind_eq_ok.mp h
      obtain ⟨value, -, h⟩ := bind_eq_ok.mp h
      obtain ⟨-, rfl⟩ := Prod.mk.inj (Except.ok.inj h)
      rw [heq]
      exact ⟨0, passes_readString hstring⟩
    · next heq =>
      obtain ⟨⟨symbol, behind⟩, hkey, h⟩ := bind_eq_ok.mp h
      obtain ⟨value, -, h⟩ := bind_eq_ok.mp h
      obtain ⟨null, hcolon, h⟩ := bind_eq_ok.mp h
      obtain ⟨behind', hnull, h⟩ := bind_eq_ok.mp h
      obtain ⟨rest, hclose, h⟩ := bind_eq_ok.mp h
      obtain ⟨-, rfl⟩ := Prod.mk.inj (Except.ok.inj h)
      rw [heq]
      exact passes_signObject hkey hcolon hnull hclose
    · cases h
  finite _ _ _ _ := by simp

end Scalars

section Optional

theorem read_optional_eq_ok {text rest : List Char} {value : Option β}
    (h : c.optional.read text = .ok (value, rest)) :
    (value = none ∧ ∃ tail, Json.skipBlanks text = 'n' :: tail ∧
      word ['u', 'l', 'l'] tail = .ok rest) ∨
    ∃ found, value = some found ∧ c.read (Json.skipBlanks text) = .ok (found, rest) := by
  simp only [Codec.optional] at h
  split at h
  · next tail heq =>
    obtain ⟨rest, hword, h⟩ := bind_eq_ok.mp h
    obtain ⟨rfl, rfl⟩ := Prod.mk.inj (Except.ok.inj h)
    exact Or.inl ⟨rfl, tail, heq, hword⟩
  · obtain ⟨⟨found, rest⟩, hfound, h⟩ := bind_eq_ok.mp h
    obtain ⟨rfl, rfl⟩ := Prod.mk.inj (Except.ok.inj h)
    exact Or.inr ⟨found, rfl, hfound⟩

/-- A value that is written like null could not be told from none. -/
theorem Lawful.optional (h : c.Lawful numbers)
    (hnull : ∀ value tail, (∀ x ∈ numbers value, x.isFinite = true) →
      c.write value ≠ 'n' :: tail) :
    c.optional.Lawful fun value => value.toList.flatMap numbers where
  compact
    | none => .scalar .null
    | some value => h.compact value
  skipBlanks text := by
    simp only [Codec.optional, skipBlanks_skipBlanks]
  recovers
    | none, _, text, htext, rest, _ => by
      obtain rfl := htext.eq_of_isScalar .null
      rfl
    | some value, hvalue, text, htext, rest, hrest => by
      have hvalue' : ∀ x ∈ numbers value, reread x = some x := by simpa using hvalue
      have hfinite : ∀ x ∈ numbers value, x.isFinite = true := by
        intro x hx
        rw [← isSome_reread, hvalue' x hx]
        rfl
      obtain ⟨first, tail, tail', hwrite, rfl, hblank, -⟩ := htext.begins
      have hn : first ≠ 'n' := fun hn => hnull value tail hfinite (hn ▸ hwrite)
      have hread := h.recovers value hvalue' _ htext rest hrest
      refine ok_of_toOption ?_
      rw [List.cons_append] at hread ⊢
      rw [optional_read hblank hn, hread]
      rfl
  passes text value rest hread := by
    refine exists_passes_of_skipBlanks ?_
    obtain ⟨-, tail, heq, hword⟩ | ⟨found, -, hfound⟩ := read_optional_eq_ok hread
    · rw [heq, eq_of_word hword]
      exact ⟨0, fun fuel later => rfl⟩
    · exact h.passes _ found rest hfound
  finite text value rest hread := by
    obtain ⟨rfl, -⟩ | ⟨found, rfl, hfound⟩ := read_optional_eq_ok hread
    · simp
    · simpa using h.finite _ found rest hfound

end Optional

section Elements

variable {isFirst : Bool} {gap text rest behind : List Char}

theorem nextElement_gap (isFirst : Bool) {before : List Char} {first : Char} {tail : List Char}
    (hgap : Blanks gap) (hbefore : Blanks before) (hblank : isBlank first = false)
    (hend : first ≠ ']') :
    nextElement isFirst (gap ++ (separator isFirst ++ (before ++ first :: tail))) =
      .ok (true, first :: tail) := by
  have hfirst : Json.skipBlanks (before ++ first :: tail) = first :: tail :=
    skipBlanks_blanks hbefore hblank
  cases isFirst with
  | true =>
    have hskip : nextElement true (gap ++ (before ++ first :: tail)) =
        nextElement true (first :: tail) := by
      rw [nextElement, nextElement, skipBlanks_append hgap, hfirst, skipBlanks_cons hblank]
    exact hskip.trans (nextElement_separator true hblank hend)
  | false =>
    change nextElement false (gap ++ ',' :: (before ++ first :: tail)) = _
    unfold nextElement
    rw [skipBlanks_blanks hgap (by decide)]
    split
    · next heq => cases heq
    · next heq => exact absurd (List.cons.inj heq).1 (by decide)
    · next heq =>
      obtain ⟨rfl, rfl⟩ := List.cons.inj heq
      rw [if_neg Bool.false_ne_true, if_pos rfl, hfirst]
      split
      · next heq => cases heq
      · next heq => exact absurd (List.cons.inj heq).1 hend
      · rfl

theorem nextElement_end (isFirst : Bool) (hgap : Blanks gap) :
    nextElement isFirst (gap ++ ']' :: rest) = .ok (false, ']' :: rest) := by
  rw [nextElement, skipBlanks_blanks hgap (by decide)]
  rfl

theorem nextElement_eq_end (h : nextElement isFirst text = .ok (false, behind)) :
    ∃ rest, behind = ']' :: rest ∧ Json.skipBlanks text = ']' :: rest := by
  unfold nextElement at h
  split at h
  · cases h
  · next heq =>
    obtain ⟨-, rfl⟩ := Prod.mk.inj (Except.ok.inj h)
    exact ⟨_, rfl, heq⟩
  · split at h
    · cases h
    · split at h
      · split at h <;> cases h
      · cases h

theorem nextElement_eq_first (h : nextElement true text = .ok (true, behind)) :
    Json.skipBlanks text = behind ∧ ∃ first tail, behind = first :: tail ∧ first ≠ ']' := by
  unfold nextElement at h
  split at h
  · cases h
  · cases h
  · next first tail hne heq =>
    obtain ⟨-, rfl⟩ := Prod.mk.inj (Except.ok.inj h)
    exact ⟨heq, first, tail, rfl, hne⟩

theorem nextElement_eq_next (h : nextElement false text = .ok (true, behind)) :
    ∃ rest, Json.skipBlanks text = ',' :: rest ∧ Json.skipBlanks rest = behind := by
  unfold nextElement at h
  split at h
  · cases h
  · cases h
  · next first tail _ heq =>
    rw [if_neg Bool.false_ne_true] at h
    split at h
    · next hcomma =>
      subst hcomma
      split at h
      · cases h
      · cases h
      · next helement =>
        obtain ⟨-, rfl⟩ := Prod.mk.inj (Except.ok.inj h)
        exact ⟨tail, heq, rfl⟩
    · cases h

theorem nextElement_item {i : Item} (isFirst : Bool) (hgap : Blanks gap) (hi : i.Around)
    (hspaced : Spaced i.compact i.text) (following : List Char) :
    nextElement isFirst (gap ++ (separator isFirst ++ (i.spaced ++ following))) =
      .ok (true, i.text ++ (i.after ++ following)) := by
  obtain ⟨first, -, tail, -, htext, hblank, hend⟩ := hspaced.begins
  rw [Item.spaced, htext, List.append_assoc, List.append_assoc]
  exact nextElement_gap isFirst hgap hi.before hblank hend

theorem Lawful.read_item (h : c.Lawful numbers) {i : Item} {value : β} (hi : i.Around)
    (hspaced : Spaced (c.write value) i.text) (hvalue : ∀ x ∈ numbers value, reread x = some x)
    {following : List Char} (hfollowing : Delimits following) :
    c.read (i.text ++ (i.after ++ following)) = .ok (value, i.after ++ following) :=
  h.recovers value hvalue i.text hspaced _ (hfollowing.blanks hi.after)

theorem Lawful.readElements (h : c.Lawful numbers) (rest : List Char) (values : List β) :
    ∀ (items : List Item) (gap : List Char) (fuel : Nat) (isFirst : Bool), Blanks gap →
      (∀ i ∈ items, i.Around) → (∀ i ∈ items, Spaced i.compact i.text) →
      items.map (·.compact) = values.map c.write →
      (∀ value ∈ values, ∀ x ∈ numbers value, reread x = some x) → values.length < fuel →
      readElements c fuel isFirst
        (gap ++ (separated isFirst (items.map Item.spaced) ++ ']' :: rest)) =
          .ok (values, ']' :: rest) := by
  induction values with
  | nil =>
    intro items gap fuel isFirst hgap _ _ heq _ hfuel
    obtain ⟨fuel, rfl⟩ := Nat.exists_eq_succ_of_ne_zero (Nat.ne_zero_of_lt hfuel)
    obtain rfl := List.map_eq_nil_iff.mp heq
    have hend : nextElement isFirst (gap ++ ']' :: rest) = .ok (false, ']' :: rest) :=
      nextElement_end isFirst hgap
    simp only [List.map_nil, separated, List.nil_append, Codec.readElements, hend, bind,
      Except.bind]
    rfl
  | cons value values ih =>
    intro items gap fuel isFirst hgap haround hspaced heq hvalues hfuel
    obtain ⟨fuel, rfl⟩ := Nat.exists_eq_succ_of_ne_zero (Nat.ne_zero_of_lt hfuel)
    obtain ⟨i, items, rfl, hcompact, hitems⟩ := List.map_eq_cons_iff.mp heq
    let following := separated false (items.map Item.spaced) ++ ']' :: rest
    have hi := haround i List.mem_cons_self
    have hitem := hspaced i List.mem_cons_self
    have hnext := nextElement_item isFirst hgap hi hitem following
    have hread := h.read_item hi (hcompact ▸ hitem) (hvalues value List.mem_cons_self)
      (delimits_separated (items.map Item.spaced) (delimits_bracket rest))
    have hrest := ih items i.after fuel false hi.after
      (fun i hi => haround i (List.mem_cons_of_mem _ hi))
      (fun i hi => hspaced i (List.mem_cons_of_mem _ hi)) hitems
      (fun value hvalue => hvalues value (List.mem_cons_of_mem _ hvalue))
      (Nat.lt_of_succ_lt_succ hfuel)
    have hwhole : separated isFirst ((i :: items).map Item.spaced) ++ ']' :: rest =
        separator isFirst ++ (i.spaced ++ following) :=
      separated_append isFirst _ _ _
    rw [hwhole, Codec.readElements, hnext]
    simp only [bind, Except.bind, if_true, following, hread, hrest]
    rfl

theorem passes_end (h : nextElement isFirst text = .ok (false, behind))
    (hclose : mark ']' behind = .ok rest) :
    Json.skipBlanks text = ']' :: rest := by
  obtain ⟨rest', rfl, htext⟩ := nextElement_eq_end h
  rw [mark_cons (by decide)] at hclose
  rw [htext, Except.ok.inj hclose]

theorem Lawful.passes_readElements (h : c.Lawful numbers) {values : List β} {fuel : Nat}
    (hread : Codec.readElements c fuel false text = .ok (values, behind))
    (hclose : mark ']' behind = .ok rest) : ∃ n, Passes n .elements text rest := by
  induction fuel generalizing text values with
  | zero => cases hread
  | succ fuel ih =>
    obtain ⟨⟨isElement, element⟩, hnext, hread⟩ := bind_eq_ok.mp hread
    cases isElement with
    | false =>
      obtain ⟨-, rfl⟩ := Prod.mk.inj (Except.ok.inj hread)
      refine ⟨0, .of_skipBlanks ?_⟩
      rw [passes_end hnext hclose]
      exact fun fuel later => rfl
    | true =>
      obtain ⟨⟨value, mid⟩, hvalue, hread⟩ := bind_eq_ok.mp hread
      obtain ⟨⟨values, last⟩, hvalues, hread⟩ := bind_eq_ok.mp hread
      obtain ⟨-, rfl⟩ := Prod.mk.inj (Except.ok.inj hread)
      obtain ⟨start, hcomma, rfl⟩ := nextElement_eq_next hnext
      obtain ⟨n, hn⟩ := h.passes _ value mid hvalue
      obtain ⟨m, hm⟩ := ih hvalues
      have hnext : Passes (n + 1 + (m + 1)) .elements (',' :: start) rest :=
        .of_step (fun fuel later => rfl) hn.of_skipBlanks hm
      exact ⟨_, .of_skipBlanks (hcomma ▸ hnext)⟩

theorem Lawful.passes_elements (h : c.Lawful numbers) {values : List β} {fuel : Nat}
    (hread : Codec.readElements c fuel true text = .ok (values, behind))
    (hclose : mark ']' behind = .ok rest) : ∃ n, Passes n .value ('[' :: text) rest := by
  cases fuel with
  | zero => cases hread
  | succ fuel =>
    obtain ⟨⟨isElement, element⟩, hnext, hread⟩ := bind_eq_ok.mp hread
    cases isElement with
    | false =>
      obtain ⟨-, rfl⟩ := Prod.mk.inj (Except.ok.inj hread)
      exact ⟨0, passes_emptyArray (passes_end hnext hclose)⟩
    | true =>
      obtain ⟨⟨value, mid⟩, hvalue, hread⟩ := bind_eq_ok.mp hread
      obtain ⟨⟨values, last⟩, hvalues, hread⟩ := bind_eq_ok.mp hread
      obtain ⟨-, rfl⟩ := Prod.mk.inj (Except.ok.inj hread)
      obtain ⟨htext, first, tail, rfl, hne⟩ := nextElement_eq_first hnext
      obtain ⟨n, hn⟩ := h.passes _ value mid hvalue
      obtain ⟨m, hm⟩ := h.passes_readElements hvalues hclose
      exact ⟨_, .of_step (fun fuel later => skipOwed_array fuel later htext hne) hn hm⟩

theorem Lawful.finite_readElements (h : c.Lawful numbers) {values : List β} {fuel : Nat}
    (hread : Codec.readElements c fuel isFirst text = .ok (values, behind)) :
    ∀ value ∈ values, ∀ x ∈ numbers value, x.isFinite = true := by
  induction fuel generalizing isFirst text behind values with
  | zero => cases hread
  | succ fuel ih =>
    obtain ⟨⟨isElement, element⟩, hnext, hread⟩ := bind_eq_ok.mp hread
    cases isElement with
    | false =>
      obtain ⟨rfl, -⟩ := Prod.mk.inj (Except.ok.inj hread)
      exact List.forall_mem_nil _
    | true =>
      obtain ⟨⟨value, mid⟩, hvalue, hread⟩ := bind_eq_ok.mp hread
      obtain ⟨⟨values, last⟩, hvalues, hread⟩ := bind_eq_ok.mp hread
      obtain ⟨rfl, -⟩ := Prod.mk.inj (Except.ok.inj hread)
      exact List.forall_mem_cons.mpr ⟨h.finite _ value mid hvalue, ih hvalues⟩

theorem read_list_eq_ok {values : List β} (h : c.list.read text = .ok (values, rest)) :
    ∃ inner behind, Json.skipBlanks text = '[' :: inner ∧
      Codec.readElements c (inner.length + 1) true inner = .ok (values, behind) ∧
      mark ']' behind = .ok rest := by
  simp only [Codec.list] at h
  split at h
  · next inner heq =>
    obtain ⟨⟨values, behind⟩, hvalues, h⟩ := bind_eq_ok.mp h
    obtain ⟨rest, hclose, h⟩ := bind_eq_ok.mp h
    obtain ⟨rfl, rfl⟩ := Prod.mk.inj (Except.ok.inj h)
    exact ⟨inner, behind, heq, hvalues, hclose⟩
  · cases h

theorem Lawful.list (h : c.Lawful numbers) :
    c.list.Lawful fun values => values.flatMap numbers where
  compact values := isCompact_array (List.forall_mem_map.mpr fun value _ => h.compact value)
  skipBlanks text := by
    simp only [Codec.list, skipBlanks_skipBlanks]
  recovers values hvalues text htext rest _ := by
    have hvalues' : ∀ value ∈ values, ∀ x ∈ numbers value, reread x = some x :=
      fun value hvalue x hx => hvalues x (List.mem_flatMap.mpr ⟨value, hvalue, hx⟩)
    obtain ⟨lead, items, hlead, haround, hspaced, hcompact, rfl⟩ := htext.of_array
      (List.forall_mem_map.mpr fun value _ => h.compact value)
    let inner := lead ++ (separated true (items.map Item.spaced) ++ ']' :: rest)
    have hwhole : '[' :: (lead ++ (commaSeparated (items.map Item.spaced) ++ [']'])) ++ rest =
        '[' :: inner := by
      simp [inner, commaSeparated_eq]
    have hfuel : values.length < inner.length + 1 := by
      have hlength := length_le_length_separated (items.map Item.spaced)
      have heq := congrArg List.length hcompact
      simp only [List.length_map] at hlength heq
      simp only [inner, List.length_append, List.length_cons]
      omega
    have hread := h.readElements rest values items lead _ true hlead haround hspaced hcompact
      hvalues' hfuel
    rw [hwhole]
    change (Codec.readElements c (inner.length + 1) true inner >>= fun found =>
      mark ']' found.2 >>= fun behind => pure (found.1, behind)) = _
    rw [hread]
    rfl
  passes text values rest hread := by
    obtain ⟨inner, behind, heq, hvalues, hclose⟩ := read_list_eq_ok hread
    exact exists_passes_of_skipBlanks (heq ▸ h.passes_elements hvalues hclose)
  finite text values rest hread := by
    obtain ⟨inner, behind, -, hvalues, -⟩ := read_list_eq_ok hread
    intro x hx
    obtain ⟨value, hvalue, hx⟩ := List.mem_flatMap.mp hx
    exact h.finite_readElements hvalues value hvalue x hx

theorem Lawful.readElement_eq (h : c.Lawful numbers) {i : Item} {value : β} (isFirst : Bool)
    (hgap : Blanks gap) (hi : i.Around) (hcompact : i.compact = c.write value)
    (hspaced : Spaced i.compact i.text) (hvalue : ∀ x ∈ numbers value, reread x = some x)
    {following : List Char} (hfollowing : Delimits following) :
    readElement c isFirst (gap ++ (separator isFirst ++ (i.spaced ++ following))) =
      .ok (value, i.after ++ following) := by
  rw [readElement, nextElement_item isFirst hgap hi hspaced]
  exact h.read_item hi (hcompact ▸ hspaced) hvalue hfollowing

theorem readElement_eq_ok {value : β} (h : readElement c isFirst text = .ok (value, rest)) :
    ∃ element, nextElement isFirst text = .ok (true, element) ∧
      c.read element = .ok (value, rest) := by
  obtain ⟨⟨isElement, element⟩, hnext, hread⟩ := bind_eq_ok.mp h
  cases isElement with
  | false => cases hread
  | true => exact ⟨element, hnext, hread⟩

theorem read_pair_eq_ok {first second : β} (h : c.pair.read text = .ok ((first, second), rest)) :
    ∃ inner mid last, Json.skipBlanks text = '[' :: inner ∧
      readElement c true inner = .ok (first, mid) ∧
      readElement c false mid = .ok (second, last) ∧ mark ']' last = .ok rest := by
  simp only [Codec.pair] at h
  split at h
  · next inner heq =>
    obtain ⟨⟨first, mid⟩, hfirst, h⟩ := bind_eq_ok.mp h
    obtain ⟨⟨second, last⟩, hsecond, h⟩ := bind_eq_ok.mp h
    obtain ⟨rest, hclose, h⟩ := bind_eq_ok.mp h
    obtain ⟨hpair, rfl⟩ := Prod.mk.inj (Except.ok.inj h)
    obtain ⟨rfl, rfl⟩ := Prod.mk.inj hpair
    exact ⟨inner, mid, last, heq, hfirst, hsecond, hclose⟩
  · cases h

theorem Lawful.passes_pair (h : c.Lawful numbers) {inner mid last : List Char}
    {first second : β} (hfirst : readElement c true inner = .ok (first, mid))
    (hsecond : readElement c false mid = .ok (second, last)) (hclose : mark ']' last = .ok rest) :
    ∃ n, Passes n .value ('[' :: inner) rest := by
  obtain ⟨element, hnext, hfirst⟩ := readElement_eq_ok hfirst
  obtain ⟨element', hnext', hsecond⟩ := readElement_eq_ok hsecond
  obtain ⟨htext, first', tail, rfl, hne⟩ := nextElement_eq_first hnext
  obtain ⟨start, hcomma, rfl⟩ := nextElement_eq_next hnext'
  obtain ⟨n, hn⟩ := h.passes _ first mid hfirst
  obtain ⟨m, hm⟩ := h.passes _ second last hsecond
  have hlast : Passes 0 .elements last rest := by
    refine .of_skipBlanks ?_
    rw [eq_of_mark hclose]
    exact fun fuel later => rfl
  have hmid : Passes (m + 1 + (0 + 1)) .elements (',' :: start) rest :=
    .of_step (fun fuel later => rfl) hm.of_skipBlanks hlast
  have hmid' : Passes (m + 1 + (0 + 1)) .elements mid rest := .of_skipBlanks (hcomma ▸ hmid)
  exact ⟨_, .of_step (fun fuel later => skipOwed_array fuel later htext hne) hn hmid'⟩

theorem Lawful.pair (h : c.Lawful numbers) :
    c.pair.Lawful fun values => numbers values.1 ++ numbers values.2 where
  compact values := isCompact_array (by simpa using ⟨h.compact values.1, h.compact values.2⟩)
  skipBlanks text := by
    simp only [Codec.pair, skipBlanks_skipBlanks]
  recovers := by
    rintro ⟨first, second⟩ hvalues text htext rest -
    obtain ⟨hfirst, hsecond⟩ := List.forall_mem_append.mp hvalues
    obtain ⟨lead, items, hlead, haround, hspaced, hcompact, rfl⟩ := htext.of_array
      (by simpa using ⟨h.compact first, h.compact second⟩)
    obtain ⟨i, items, rfl, hi, hitems⟩ := List.map_eq_cons_iff.mp hcompact
    obtain ⟨j, items, rfl, hj, hitems⟩ := List.map_eq_cons_iff.mp hitems
    obtain rfl := List.map_eq_nil_iff.mp hitems
    simp only [List.forall_mem_cons] at haround hspaced
    let following := separator false ++ (j.spaced ++ ']' :: rest)
    have hfollowing : Delimits following := delimits_comma (j.spaced ++ ']' :: rest)
    have hreadFirst := h.readElement_eq true hlead haround.1 hi hspaced.1 hfirst hfollowing
    have hreadSecond := h.readElement_eq false haround.1.after haround.2.1 hj hspaced.2.1 hsecond
      (delimits_bracket rest)
    have hclose : mark ']' (j.after ++ ']' :: rest) = .ok rest :=
      mark_blanks haround.2.1.after (by decide)
    have hwhole : '[' :: (lead ++ (commaSeparated ([i, j].map Item.spaced) ++ [']'])) ++ rest =
        '[' :: (lead ++ (separator true ++ (i.spaced ++ following))) := by
      simp [commaSeparated_eq, separated, separator, following]
    rw [hwhole]
    change (readElement c true (lead ++ (separator true ++ (i.spaced ++ following))) >>=
      fun found => readElement c false found.2 >>= fun found' => mark ']' found'.2 >>=
        fun behind => pure ((found.1, found'.1), behind)) = _
    rw [hreadFirst]
    change (readElement c false (i.after ++ following) >>= fun found' => mark ']' found'.2 >>=
      fun behind => pure ((first, found'.1), behind)) = _
    rw [hreadSecond]
    change (mark ']' (j.after ++ ']' :: rest) >>= fun behind => pure ((first, second), behind)) = _
    rw [hclose]
    rfl
  passes := by
    rintro text ⟨first, second⟩ rest hread
    obtain ⟨inner, mid, last, heq, hfirst, hsecond, hclose⟩ := read_pair_eq_ok hread
    exact exists_passes_of_skipBlanks (heq ▸ h.passes_pair hfirst hsecond hclose)
  finite := by
    rintro text ⟨first, second⟩ rest hread
    obtain ⟨inner, mid, last, -, hfirst, hsecond, -⟩ := read_pair_eq_ok hread
    obtain ⟨element, -, hfirst⟩ := readElement_eq_ok hfirst
    obtain ⟨element', -, hsecond⟩ := readElement_eq_ok hsecond
    exact List.forall_mem_append.mpr
      ⟨h.finite _ first mid hfirst, h.finite _ second last hsecond⟩

end Elements

end Codec

end LeastCost.Json
