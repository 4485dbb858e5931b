import LeastCost.Proofs.Json.Grammar

/-!
# Passing over values

A value is passed over up to its end, however deep it is nested and wherever blanks stand. Since
passing over is a function of the text, a text begins with at most one value.
-/

namespace LeastCost.Json

/-- What is owed in front of the rest is passed over in `n + 1` steps, whatever else is owed. -/
def Passes (n : Nat) (owed : Owed) (text rest : List Char) : Prop :=
  ∀ fuel later, skipOwed (fuel + (n + 1)) (owed :: later) text = skipOwed fuel later rest

section Steps

variable {gap text rest : List Char} {c : Char} {owed : Owed} {n : Nat}

theorem skipBlanks_blanks (h : Blanks gap) (hc : isBlank c = false) :
    skipBlanks (gap ++ c :: rest) = c :: rest := by
  rw [skipBlanks_append h, skipBlanks_cons hc]

theorem mark_blanks (h : Blanks gap) (hc : isBlank c = false) :
    mark c (gap ++ c :: rest) = .ok rest := by
  rw [mark, skipBlanks_append h]
  exact mark_cons hc

theorem Delimits.blanks (h : Blanks gap) (hrest : Delimits rest) : Delimits (gap ++ rest) := by
  cases gap with
  | nil => exact hrest
  | cons c gap =>
    have hc : isBlank c = true := h c List.mem_cons_self
    simp only [isBlank, Bool.or_eq_true, beq_iff_eq] at hc
    rcases hc with ((rfl | rfl) | rfl) | rfl <;>
      exact .cons (by decide) (by decide) (by decide) (by decide)

theorem delimits_brace (rest : List Char) : Delimits ('\x7d' :: rest) :=
  .cons (by decide) (by decide) (by decide) (by decide)

theorem skipOwed_blanks (fuel : Nat) (owed : Owed) (later : List Owed) (hgap : Blanks gap)
    (text : List Char) :
    skipOwed fuel (owed :: later) (gap ++ text) = skipOwed fuel (owed :: later) text := by
  cases fuel with
  | zero => rfl
  | succ fuel => cases owed <;> simp only [skipOwed, skipBlanks_append hgap]

theorem Passes.blanks (h : Passes n owed text rest) (hgap : Blanks gap) :
    Passes n owed (gap ++ text) rest := by
  intro fuel later
  rw [skipOwed_blanks _ _ _ hgap]
  exact h fuel later

theorem Passes.of_skipBlanks (h : Passes n owed (skipBlanks text) rest) :
    Passes n owed text rest := by
  have hb : Blanks (text.takeWhile isBlank) := fun c hc => List.mem_takeWhile_imp hc
  have hsplit : text.takeWhile isBlank ++ skipBlanks text = text :=
    List.takeWhile_append_dropWhile
  exact hsplit ▸ h.blanks hb

theorem Passes.of_step {m : Nat} {inner outer : Owed} {start behind : List Char}
    (hstep : ∀ fuel later, skipOwed (fuel + 1) (owed :: later) start =
      skipOwed fuel (inner :: outer :: later) text)
    (h : Passes n inner text behind) (h' : Passes m outer behind rest) :
    Passes (n + 1 + (m + 1)) owed start rest := by
  intro fuel later
  have hfuel : fuel + (n + 1 + (m + 1) + 1) = fuel + (m + 1) + (n + 1) + 1 := by omega
  rw [hfuel, hstep, h, h']

theorem Passes.unique {m : Nat} {rest' : List Char} (h : Passes n owed text rest)
    (h' : Passes m owed text rest') : rest = rest' := by
  have hn := h (m + 1) []
  have hm := h' (n + 1) []
  rw [Nat.add_comm] at hn
  rw [hn] at hm
  simpa [skipOwed] using hm

end Steps

section Scalars

variable {text rest : List Char}

theorem passes_of_read {n : Numeral} (hstarts : Numeral.startsWith text = true)
    (hread : Numeral.read text = .ok (n, rest)) : Passes 0 .value text rest := by
  cases text with
  | nil => cases hstarts
  | cons first tail =>
    intro fuel later
    have hfirst : first = '-' ∨ first.isDigit := by simpa [Numeral.startsWith] using hstarts
    have hskip : Numeral.skip (first :: tail) = .ok rest := by rw [Numeral.skip, hread]
    have hne : ∀ c ∈ ['n', 't', 'f', '"', '[', '\x7b'], first ≠ c := by
      rintro c hc rfl
      rcases hfirst with rfl | hdigit
      · revert hc
        decide
      · revert hdigit
        fin_cases hc <;> decide
    rw [skipOwed, skipBlanks_cons (Codec.not_blank hfirst).1]
    split
    -- No other kind of value begins like a number.
    case h_8 heq =>
      obtain ⟨rfl, rfl⟩ := List.cons.inj heq
      rw [if_pos hstarts, hskip]
      rfl
    case h_1 heq => cases heq
    all_goals
      next heq => exact absurd (List.cons.inj heq).1 (hne _ (by decide))

theorem passes_string (h : IsQuoted text) (rest : List Char) :
    Passes 0 .value ('"' :: (text ++ rest)) rest := by
  intro fuel later
  have hskip : skipString (text ++ rest) = .ok rest := by
    refine h.skips rest ?_
    rw [List.length_append]
    omega
  change (skipString (text ++ rest) >>= fun behind => skipOwed fuel later behind) = _
  rw [hskip]
  rfl

theorem passes_scalar (h : IsScalar text) (hrest : Delimits rest) :
    Passes 0 .value (text ++ rest) rest := by
  cases h with
  | null | true | false => exact fun fuel later => rfl
  | string h => exact passes_string h rest
  | number h =>
    obtain ⟨n, hread⟩ := h.reads hrest
    obtain ⟨first, tail, rfl, hfirst⟩ := h.begins
    refine passes_of_read ?_ hread
    simpa [Numeral.startsWith] using hfirst

end Scalars

section Nested

variable {gap : List Char}

/-- Passing over a value takes less steps than it has characters. -/
def Passable (text : List Char) : Prop :=
  ∀ rest, Delimits rest → ∃ n < text.length, Passes n .value (text ++ rest) rest

theorem Item.passes {i : Item} {following : List Char} (h : i.Around) (hp : Passable i.text)
    (hfollowing : Delimits following) :
    ∃ n < i.text.length, Passes n .value (i.spaced ++ following) (i.after ++ following) := by
  obtain ⟨n, hn, hpass⟩ := hp (i.after ++ following) (hfollowing.blanks h.after)
  refine ⟨n, hn, ?_⟩
  rw [Item.spaced, List.append_assoc, List.append_assoc]
  exact hpass.blanks h.before

theorem skipKey_blanks {text : List Char} (h : Blanks gap) :
    skipKey (gap ++ text) = skipKey text := by
  rw [skipKey, skipKey, mark, mark, skipBlanks_append h]

theorem Entry.skipKey_eq {e : Entry} (h : e.Around) (following : List Char) :
    skipKey (e.spacedMember ++ following) = .ok (e.spaced ++ following) := by
  have hmark : mark '"' (e.spacedMember ++ following) =
      .ok (e.key ++ (e.gap ++ ':' :: (e.spaced ++ following))) := by
    simpa [Entry.spacedMember] using @mark_blanks e.lead
      (e.key ++ (e.gap ++ ':' :: (e.spaced ++ following))) '"' h.lead (by decide)
  have hstring : skipString (e.key ++ (e.gap ++ ':' :: (e.spaced ++ following))) =
      .ok (e.gap ++ ':' :: (e.spaced ++ following)) := by
    refine h.quoted.skips _ ?_
    rw [List.length_append]
    omega
  simp only [skipKey, hmark, hstring, bind, Except.bind]
  exact mark_blanks h.gap (by decide)

theorem skipOwed_array {text tail : List Char} {first : Char} (fuel : Nat) (later : List Owed)
    (htext : skipBlanks text = first :: tail) (hne : first ≠ ']') :
    skipOwed (fuel + 1) (.value :: later) ('[' :: text) =
      skipOwed fuel (.value :: .elements :: later) (first :: tail) := by
  have hopen : skipBlanks ('[' :: text) = '[' :: text := skipBlanks_cons (by decide)
  simp only [skipOwed, hopen, htext]
  split
  · next heq => exact absurd (List.cons.inj heq).1 hne
  · rfl

theorem passes_emptyArray {text rest : List Char} (htext : skipBlanks text = ']' :: rest) :
    Passes 0 .value ('[' :: text) rest := by
  intro fuel later
  have hopen : skipBlanks ('[' :: text) = '[' :: text := skipBlanks_cons (by decide)
  simp only [skipOwed, hopen, htext]

theorem skipOwed_object {text tail : List Char} (fuel : Nat) (later : List Owed)
    (htext : skipBlanks text = '"' :: tail) :
    skipOwed (fuel + 1) (.value :: later) ('\x7b' :: text) =
      skipKey text >>= fun behind => skipOwed fuel (.value :: .members :: later) behind := by
  have hopen : skipBlanks ('\x7b' :: text) = '\x7b' :: text := skipBlanks_cons (by decide)
  have hkey : skipKey ('"' :: tail) = skipKey text := by
    rw [skipKey, skipKey, mark, mark, ← htext, skipBlanks, skipBlanks, List.dropWhile_idempotent]
  simp only [skipOwed, hopen, htext, ← hkey]
  rfl

/-- How parts stand between two brackets: a step in front of a part ends at the item in it, and what
is owed from then on is the item and the other parts. -/
structure Bracket {ι : Type} (item : ι → Item) (part : ι → List Char) (opening close : Char)
    (owed : Owed) (Fits : ι → Prop) : Prop where
  around : ∀ x, Fits x → (item x).Around
  length_le : ∀ x, (item x).text.length ≤ (part x).length
  first : ∀ x, Fits x → ∀ lead following fuel later, Blanks lead →
    skipOwed (fuel + 1) (.value :: later) (opening :: (lead ++ (part x ++ following))) =
      skipOwed fuel (.value :: owed :: later) ((item x).spaced ++ following)
  next : ∀ x, Fits x → ∀ following fuel later,
    skipOwed (fuel + 1) (owed :: later) (',' :: (part x ++ following)) =
      skipOwed fuel (.value :: owed :: later) ((item x).spaced ++ following)
  empty : ∀ lead rest, Blanks lead → Passes 0 .value (opening :: (lead ++ close :: rest)) rest
  ends : ∀ rest, Passes 0 owed (close :: rest) rest
  delimits : ∀ rest, Delimits (close :: rest)

namespace Bracket

variable {ι : Type} {item : ι → Item} {part : ι → List Char} {opening close : Char} {owed : Owed}
  {Fits : ι → Prop}

theorem passes_rest (b : Bracket item part opening close owed Fits) (rest : List Char)
    (parts : List ι) (hfits : ∀ x ∈ parts, Fits x) (hp : ∀ x ∈ parts, Passable (item x).text)
    (hgap : Blanks gap) :
    ∃ n ≤ (separated false (parts.map part)).length,
      Passes n owed (gap ++ (separated false (parts.map part) ++ close :: rest)) rest := by
  induction parts generalizing gap with
  | nil => exact ⟨0, Nat.zero_le _, (b.ends rest).blanks hgap⟩
  | cons x parts ih =>
    let following := separated false (parts.map part) ++ close :: rest
    have hx := hfits x List.mem_cons_self
    obtain ⟨n, hn, hitem⟩ := (item x).passes (b.around x hx) (hp x List.mem_cons_self)
      (delimits_separated (parts.map part) (b.delimits rest))
    obtain ⟨m, hm, hrest⟩ := ih (fun x hx => hfits x (List.mem_cons_of_mem _ hx))
      (fun x hx => hp x (List.mem_cons_of_mem _ hx)) (b.around x hx).after
    have hwhole : separated false ((x :: parts).map part) ++ close :: rest =
        ',' :: (part x ++ following) :=
      separated_append false _ _ _
    refine ⟨n + 1 + (m + 1), ?_, .blanks ?_ hgap⟩
    · have hle := b.length_le x
      simp only [List.map_cons, separated, separator, List.length_append, Bool.false_eq_true,
        if_false, List.length_cons, List.length_nil] at hm ⊢
      omega
    · rw [hwhole]
      exact .of_step (b.next x hx following) hitem hrest

theorem passable (b : Bracket item part opening close owed Fits) {lead : List Char}
    (hlead : Blanks lead) (parts : List ι) (hfits : ∀ x ∈ parts, Fits x)
    (hp : ∀ x ∈ parts, Passable (item x).text) :
    Passable (opening :: (lead ++ (commaSeparated (parts.map part) ++ [close]))) := by
  intro rest _
  have hwhole : opening :: (lead ++ (commaSeparated (parts.map part) ++ [close])) ++ rest =
      opening :: (lead ++ (separated true (parts.map part) ++ close :: rest)) := by
    simp [commaSeparated_eq]
  rw [hwhole, commaSeparated_eq]
  cases parts with
  | nil => exact ⟨0, by simp, b.empty lead rest hlead⟩
  | cons x parts =>
    let following := separated false (parts.map part) ++ close :: rest
    have hx := hfits x List.mem_cons_self
    obtain ⟨n, hn, hitem⟩ := (item x).passes (b.around x hx) (hp x List.mem_cons_self)
      (delimits_separated (parts.map part) (b.delimits rest))
    obtain ⟨m, hm, hrest⟩ := b.passes_rest rest parts
      (fun x hx => hfits x (List.mem_cons_of_mem _ hx))
      (fun x hx => hp x (List.mem_cons_of_mem _ hx)) (b.around x hx).after
    have hparts : separated true ((x :: parts).map part) ++ close :: rest = part x ++ following :=
      separated_append true _ _ _
    refine ⟨n + 1 + (m + 1), ?_, ?_⟩
    · have hle := b.length_le x
      simp only [List.map_cons, separated, separator, List.length_append, if_true,
        List.length_cons, List.length_nil] at hm ⊢
      omega
    · rw [hparts]
      exact .of_step (fun fuel later => b.first x hx lead following fuel later hlead) hitem hrest

end Bracket

theorem bracket_array :
    Bracket id Item.spaced '[' ']' .elements fun i => i.Around ∧ Spaced i.compact i.text where
  around _ h := h.1
  length_le i := by
    simp only [id, Item.spaced, List.length_append]
    omega
  first := by
    rintro i ⟨hi, htext⟩ lead following fuel later hlead
    obtain ⟨first, -, tail, -, htext, hblank, hne⟩ := htext.begins
    have hspaced : i.spaced ++ following =
        i.before ++ first :: (tail ++ (i.after ++ following)) := by
      simp [Item.spaced, htext]
    have hskip : skipBlanks (lead ++ (i.spaced ++ following)) =
        first :: (tail ++ (i.after ++ following)) := by
      rw [skipBlanks_append hlead, hspaced]
      exact skipBlanks_blanks hi.before hblank
    rw [skipOwed_array fuel later hskip hne, id, hspaced, skipOwed_blanks _ _ _ hi.before]
  next _ _ _ _ _ := rfl
  empty lead rest hlead := passes_emptyArray (skipBlanks_blanks hlead (by decide))
  ends _ _ _ := rfl
  delimits := delimits_bracket

theorem bracket_object :
    Bracket Entry.toItem Entry.spacedMember '\x7b' '\x7d' .members Entry.Around where
  around _ h := h.toAround
  length_le e := by
    simp only [Entry.spacedMember, Item.spaced, List.length_append, List.length_cons]
    omega
  first e h lead following fuel later hlead := by
    have hquote : skipBlanks (lead ++ (e.spacedMember ++ following)) =
        '"' :: (e.key ++ (e.gap ++ ':' :: (e.spaced ++ following))) := by
      rw [skipBlanks_append hlead]
      simpa [Entry.spacedMember] using skipBlanks_blanks h.lead (by decide)
    rw [skipOwed_object _ _ hquote, skipKey_blanks hlead, Entry.skipKey_eq h]
    rfl
  next e h following fuel later := by
    change (skipKey (e.spacedMember ++ following) >>= fun behind =>
      skipOwed fuel (.value :: .members :: later) behind) = _
    rw [Entry.skipKey_eq h]
    rfl
  empty lead rest hlead := by
    intro fuel later
    have hopen : skipBlanks ('\x7b' :: (lead ++ '\x7d' :: rest)) =
        '\x7b' :: (lead ++ '\x7d' :: rest) :=
      skipBlanks_cons (by decide)
    have hclose : skipBlanks (lead ++ '\x7d' :: rest) = '\x7d' :: rest :=
      skipBlanks_blanks hlead (by decide)
    simp only [skipOwed, hopen, hclose]
  ends _ _ _ := rfl
  delimits := delimits_brace

theorem Spaced.passable {compact text : List Char} (h : Spaced compact text) : Passable text := by
  induction h with
  | @scalar text h =>
    intro rest hrest
    obtain ⟨first, -, tail, -, htext, -⟩ := (Spaced.scalar h).begins
    refine ⟨0, ?_, passes_scalar h hrest⟩
    rw [htext]
    exact Nat.succ_pos _
  | @array lead items hlead haround hspaced ih =>
    exact bracket_array.passable hlead items (fun i hi => ⟨haround i hi, hspaced i hi⟩) ih
  | @object lead entries hlead haround _ ih =>
    exact bracket_object.passable hlead entries haround ih

end Nested

section Uniqueness

variable {compact compact' text text' rest rest' : List Char}

theorem Passes.skipValue {n : Nat} (h : Passes n .value text rest) (hn : n ≤ text.length) :
    skipValue text = .ok rest := by
  have hfuel : text.length + 1 = text.length - n + (n + 1) := by omega
  rw [Json.skipValue, hfuel, h]
  cases text.length - n <;> rfl

/-- A value is passed over in one step for each of its characters, with blanks around it. -/
theorem Item.skipValue_eq {i : Item} (h : i.Around) (hspaced : Spaced i.compact i.text)
    (hrest : Delimits rest) : skipValue (i.spaced ++ rest) = .ok (i.after ++ rest) := by
  obtain ⟨n, hn, hpass⟩ := i.passes h hspaced.passable hrest
  refine hpass.skipValue ?_
  simp only [Item.spaced, List.length_append]
  omega

/-- A text begins with at most one value. -/
theorem Spaced.eq_of_append_eq (h : Spaced compact text) (h' : Spaced compact' text')
    (hrest : Delimits rest) (hrest' : Delimits rest') (heq : text ++ rest = text' ++ rest') :
    text = text' ∧ rest = rest' := by
  obtain ⟨n, -, hpass⟩ := h.passable rest hrest
  obtain ⟨m, -, hpass'⟩ := h'.passable rest' hrest'
  rw [← heq] at hpass'
  obtain rfl := hpass.unique hpass'
  exact ⟨List.append_cancel_right heq, rfl⟩

theorem Spaced.isCompact (h : Spaced compact text) : IsCompact compact := by
  induction h with
  | scalar h => exact .scalar h
  | array _ _ _ ih => exact isCompact_array (List.forall_mem_map.mpr ih)
  | @object lead entries _ haround _ ih =>
    let plain (e : Entry) : Entry := ⟨Item.plain e.compact, [], e.key, []⟩
    have hobject := @Spaced.object [] (entries.map plain) .nil
      (List.forall_mem_map.mpr fun e he => ⟨⟨.nil, .nil⟩, .nil, (haround e he).quoted, .nil⟩)
      (List.forall_mem_map.mpr ih)
    have hmember : (entries.map plain).map Entry.compactMember =
        entries.map Entry.compactMember := by
      simp [Function.comp_def, plain, Entry.compactMember, Item.plain]
    have hmember' : (entries.map plain).map Entry.spacedMember =
        entries.map Entry.compactMember := by
      simp [Function.comp_def, plain, Entry.compactMember, Entry.spacedMember, Item.plain,
        Item.spaced]
    rwa [hmember, hmember', List.nil_append] at hobject

theorem IsScalar.not_bracket {c : Char} {tail : List Char} (h : IsScalar (c :: tail)) :
    c ≠ '[' ∧ c ≠ '\x7b' := by
  cases h with
  | null | true | false | string => decide
  | number h =>
    obtain ⟨first, tail, heq, hfirst⟩ := h.begins
    obtain ⟨rfl, -⟩ := List.cons.inj heq
    rcases hfirst with rfl | hdigit
    · decide
    · constructor
      · rintro rfl
        exact absurd hdigit (by decide)
      · rintro rfl
        exact absurd hdigit (by decide)

theorem Spaced.eq_of_isScalar (h : Spaced compact text) (hcompact : IsScalar compact) :
    text = compact := by
  cases h with
  | scalar h => rfl
  | array => exact absurd rfl hcompact.not_bracket.1
  | object => exact absurd rfl hcompact.not_bracket.2

theorem separated_ne_bracket {t : List Char} {texts : List (List Char)} (isFirst : Bool)
    (h : IsCompact t) : separated isFirst (t :: texts) ++ text ≠ ']' :: rest := by
  obtain ⟨first, tail, -, rfl, -, -, hne⟩ := h.begins
  cases isFirst with
  | true => exact fun heq => hne (List.cons.inj heq).1
  | false => exact fun heq => absurd (List.cons.inj heq).1 (by decide)

theorem separated_injective {texts texts' : List (List Char)} (isFirst : Bool)
    (h : ∀ t ∈ texts, IsCompact t) (h' : ∀ t ∈ texts', IsCompact t)
    (heq : separated isFirst texts ++ ']' :: rest = separated isFirst texts' ++ ']' :: rest') :
    texts = texts' := by
  induction texts generalizing isFirst texts' with
  | nil =>
    cases texts' with
    | nil => rfl
    | cons t' texts' =>
      exact absurd heq.symm (separated_ne_bracket isFirst (h' t' List.mem_cons_self))
  | cons t texts ih =>
    cases texts' with
    | nil => exact absurd heq (separated_ne_bracket isFirst (h t List.mem_cons_self))
    | cons t' texts' =>
      simp only [separated, List.append_assoc, List.append_cancel_left_eq] at heq
      obtain ⟨rfl, hrest⟩ := Spaced.eq_of_append_eq (h t List.mem_cons_self)
        (h' t' List.mem_cons_self) (delimits_separated texts (delimits_bracket rest))
        (delimits_separated texts' (delimits_bracket rest')) heq
      rw [ih false (fun t ht => h t (List.mem_cons_of_mem _ ht))
        (fun t ht => h' t (List.mem_cons_of_mem _ ht)) hrest]

theorem Spaced.of_array {texts : List (List Char)} (hcompact : ∀ t ∈ texts, IsCompact t)
    (h : Spaced ('[' :: (commaSeparated texts ++ [']'])) text) :
    ∃ (lead : List Char) (items : List Item), Blanks lead ∧ (∀ i ∈ items, i.Around) ∧
      (∀ i ∈ items, Spaced i.compact i.text) ∧ items.map (·.compact) = texts ∧
      text = '[' :: (lead ++ (commaSeparated (items.map Item.spaced) ++ [']'])) := by
  generalize heq : '[' :: (commaSeparated texts ++ [']']) = whole at h
  cases h with
  | scalar h => exact absurd rfl (heq ▸ h : IsScalar ('[' :: _)).not_bracket.1
  | object => exact absurd (List.cons.inj heq).1 (by decide)
  | @array lead items hlead haround hspaced =>
    refine ⟨lead, items, hlead, haround, hspaced, ?_, rfl⟩
    have hinner := (List.cons.inj heq).2
    rw [commaSeparated_eq, commaSeparated_eq] at hinner
    exact separated_injective true
      (List.forall_mem_map.mpr fun i hi => (hspaced i hi).isCompact) hcompact hinner.symm

end Uniqueness

end LeastCost.Json
