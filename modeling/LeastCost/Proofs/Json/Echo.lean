import LeastCost.Proofs.Json.Numerals
import LeastCost.Proofs.Results

/-!
# What comes back

A value is written, and the text is read again. What comes back does not depend on the text that
follows, so the echo of a composed value is composed of the echoes of its parts.
-/

namespace LeastCost.Json

section Reading

variable {β γ : Type} {expected c : Char} {rest : List Char}

theorem toOption_bind (result : Except Fault β) (next : β → Except Fault γ) :
    (result >>= next).toOption = result.toOption >>= fun value => (next value).toOption := by
  cases result <;> rfl

theorem skipBlanks_cons (h : isBlank c = false) : skipBlanks (c :: rest) = c :: rest := by
  simp [skipBlanks, h]

theorem mark_cons (h : isBlank c = false) : mark c (c :: rest) = .ok rest := by
  rw [mark, skipBlanks_cons h, word, if_pos rfl, word]

def separator (isFirst : Bool) : List Char := if isFirst then [] else [',']

theorem nextElement_separator (isFirst : Bool) (hblank : isBlank c = false) (hend : c ≠ ']') :
    nextElement isFirst (separator isFirst ++ c :: rest) = .ok (true, c :: rest) := by
  cases isFirst with
  | true =>
    simp only [separator, nextElement, skipBlanks_cons hblank, if_true, List.nil_append]
  | false =>
    have hcomma : isBlank ',' = false := by decide
    change nextElement false (',' :: c :: rest) = _
    unfold nextElement
    rw [skipBlanks_cons hcomma]
    split
    · next h => exact absurd h (List.cons_ne_nil _ _)
    · next h => exact absurd (List.cons.inj h).1 (by decide)
    · next h =>
      obtain ⟨rfl, rfl⟩ := List.cons.inj h
      rw [if_neg Bool.false_ne_true, if_pos rfl, skipBlanks_cons hblank]
      split
      · next h => exact absurd h (List.cons_ne_nil _ _)
      · next h => exact absurd (List.cons.inj h).1 hend
      · rfl

def separated (isFirst : Bool) : List (List Char) → List Char
  | [] => []
  | item :: items => separator isFirst ++ item ++ separated false items

theorem separated_append (isFirst : Bool) (item : List Char) (items : List (List Char))
    (rest : List Char) : separated isFirst (item :: items) ++ rest =
      separator isFirst ++ (item ++ (separated false items ++ rest)) := by
  simp [separated]

theorem commaSeparated_eq (items : List (List Char)) :
    commaSeparated items = separated true items := by
  induction items with
  | nil => rfl
  | cons item items ih =>
    cases items with
    | nil => simp [commaSeparated, separated, separator]
    | cons next items =>
      have hstep : commaSeparated (item :: next :: items) =
          item ++ (',' :: commaSeparated (next :: items)) := by
        simp [commaSeparated, List.intercalate, List.intersperse]
      rw [hstep, ih]
      simp [separated, separator]

theorem commaSeparated_append (items : List (List Char)) (close : Char) (rest : List Char) :
    commaSeparated items ++ [close] ++ rest = separated true items ++ close :: rest := by
  rw [commaSeparated_eq, List.append_assoc]
  rfl

theorem delimits_comma (rest : List Char) : Delimits (',' :: rest) :=
  .cons (by decide) (by decide) (by decide) (by decide)

theorem delimits_separated (items : List (List Char)) {rest : List Char} (h : Delimits rest) :
    Delimits (separated false items ++ rest) := by
  cases items with
  | nil => exact h
  | cons item items => exact delimits_comma _

theorem delimits_bracket (rest : List Char) : Delimits (']' :: rest) :=
  .cons (by decide) (by decide) (by decide) (by decide)

theorem length_le_length_separated (items : List (List Char)) :
    items.length ≤ (separated true items).length + 1 := by
  have hrest : ∀ items : List (List Char), items.length ≤ (separated false items).length := by
    intro items
    induction items with
    | nil => exact le_rfl
    | cons item items ih =>
      simp only [separated, separator, List.length_append, List.length_cons, Bool.false_eq_true,
        if_false, List.length_nil]
      omega
  cases items with
  | nil => exact Nat.zero_le _
  | cons item items =>
    have h := hrest items
    simp only [separated, List.length_append, List.length_cons]
    omega

end Reading

namespace Codec

variable {β γ : Type} {c : Codec β} {f : β → Option β}

/-- What comes back of a value that is written and read again. -/
def echo (c : Codec β) (value : β) : Option β := (c.decode (c.encode value)).toOption

theorem decode_eq_ok_iff {value back : β} :
    c.decode (c.encode value) = .ok back ↔ c.echo value = some back := by
  unfold echo
  cases c.decode (c.encode value) <;> simp [Except.toOption]

/-- What `c` writes begins like a value, and `f` tells what comes back of it, whatever follows. -/
structure Echoes (c : Codec β) (f : β → Option β) : Prop where
  begins : ∀ value, ∃ first tail,
    c.write value = first :: tail ∧ isBlank first = false ∧ first ≠ ']'
  reads : ∀ value rest, Delimits rest →
    (c.read (c.write value ++ rest)).toOption = (f value).map (·, rest)

theorem Echoes.echo_eq (h : c.Echoes f) (value : β) : c.echo value = f value := by
  have hread := h.reads value [] Delimits.nil
  rw [List.append_nil] at hread
  rw [echo, decode, encode, String.toList_ofList, toOption_bind, hread]
  cases f value <;> rfl

theorem Echoes.self (h : c.Echoes f) : c.Echoes c.echo := by
  have : c.echo = f := funext h.echo_eq
  rwa [this]

theorem echoes_flag : flag.Echoes some where
  begins value := by cases value <;> exact ⟨_, _, rfl, rfl, by decide⟩
  reads value rest _ := by cases value <;> rfl

theorem Echoes.through (h : c.Echoes f) (make : β → γ) (parts : γ → β) :
    (c.through make parts).Echoes fun value => (f (parts value)).map make where
  begins value := h.begins (parts value)
  reads value rest hrest := by
    have hread := h.reads (parts value) rest hrest
    change ((c.read (c.write (parts value) ++ rest)).bind fun found =>
      .ok (make found.1, found.2)).toOption = _
    change (c.read (c.write (parts value) ++ rest) >>= fun found =>
      Except.ok (make found.1, found.2)).toOption = _
    rw [toOption_bind, hread]
    cases f (parts value) <;> rfl

theorem optional_read {first : Char} {tail : List Char} (hblank : isBlank first = false)
    (hn : first ≠ 'n') :
    (c.optional.read (first :: tail)).toOption =
      (c.read (first :: tail)).toOption.map fun found => (some found.1, found.2) := by
  unfold Codec.optional
  dsimp only
  rw [skipBlanks_cons hblank]
  split
  · next heq => exact absurd (List.cons.inj heq).1 hn
  · cases c.read (first :: tail) <;> rfl

theorem Echoes.optional (h : c.Echoes f)
    (hnull : ∀ value tail, c.write value = 'n' :: tail → tail = ['u', 'l', 'l']) :
    c.optional.Echoes fun
      | none => some none
      | some value =>
        if c.write value = ['n', 'u', 'l', 'l'] then some none else (f value).map some where
  begins
    | none => ⟨_, _, rfl, rfl, by decide⟩
    | some value => h.begins value
  reads
    | none, rest, _ => rfl
    | some value, rest, hrest => by
      obtain ⟨first, tail, hwrite, hblank, -⟩ := h.begins value
      have hread := h.reads value rest hrest
      change (c.optional.read (c.write value ++ rest)).toOption = _
      dsimp only
      rw [hwrite] at hread ⊢
      by_cases hn : first = 'n'
      · -- Null in front is taken for none, whatever `c` would make of it.
        obtain rfl := hn
        obtain rfl := hnull value tail hwrite
        rw [if_pos rfl]
        rfl
      · rw [List.cons_append, optional_read hblank hn, ← List.cons_append, hread,
          if_neg fun heq => hn (List.cons.inj heq).1]
        cases f value <;> rfl

theorem Echoes.nextElement_write (h : c.Echoes f) (isFirst : Bool) (value : β) (rest : List Char) :
    nextElement isFirst (separator isFirst ++ (c.write value ++ rest)) =
      .ok (true, c.write value ++ rest) := by
  obtain ⟨first, tail, hwrite, hblank, hend⟩ := h.begins value
  rw [hwrite, List.cons_append]
  exact nextElement_separator isFirst hblank hend

theorem Echoes.readElements (h : c.Echoes f) (values : List β) (rest : List Char) :
    ∀ fuel isFirst, values.length < fuel →
      (readElements c fuel isFirst
        (separated isFirst (values.map c.write) ++ ']' :: rest)).toOption =
          (values.mapM f).map (·, ']' :: rest) := by
  induction values with
  | nil =>
    intro fuel isFirst hfuel
    obtain ⟨fuel, rfl⟩ := Nat.exists_eq_succ_of_ne_zero (Nat.ne_zero_of_lt hfuel)
    rfl
  | cons value values ih =>
    intro fuel isFirst hfuel
    obtain ⟨fuel, rfl⟩ := Nat.exists_eq_succ_of_ne_zero (Nat.ne_zero_of_lt hfuel)
    let following := separated false (values.map c.write) ++ ']' :: rest
    have hdelimits : Delimits following := delimits_separated _ (delimits_bracket rest)
    have hread := h.reads value following hdelimits
    have hrest := ih fuel false (Nat.lt_of_succ_lt_succ hfuel)
    rw [List.map_cons, separated, List.append_assoc, List.append_assoc, Codec.readElements,
      h.nextElement_write]
    change (c.read (c.write value ++ following) >>= fun found =>
      Codec.readElements c fuel false found.2 >>= fun others =>
        pure (found.1 :: others.1, others.2)).toOption = _
    rw [toOption_bind, hread, List.mapM_cons]
    cases f value with
    | none => rfl
    | some back =>
      change (Codec.readElements c fuel false following >>= fun others =>
        pure (back :: others.1, others.2)).toOption = _
      rw [toOption_bind, hrest]
      cases values.mapM f <;> rfl

theorem Echoes.list (h : c.Echoes f) : c.list.Echoes fun values => values.mapM f where
  begins values := ⟨_, _, rfl, rfl, by decide⟩
  reads values rest _ := by
    have htext := commaSeparated_append (values.map c.write) ']' rest
    change (Codec.readElements c _ true (commaSeparated (values.map c.write) ++ [']'] ++ rest) >>=
      fun found => mark ']' found.2 >>= fun behind => pure (found.1, behind)).toOption = _
    rw [toOption_bind, htext, h.readElements values rest]
    · cases values.mapM f <;> rfl
    · have hlength := length_le_length_separated (values.map c.write)
      rw [List.length_map] at hlength
      change values.length < (commaSeparated (values.map c.write) ++ [']'] ++ rest).length + 1
      rw [htext, List.length_append, List.length_cons]
      omega

theorem Echoes.readElement_eq (h : c.Echoes f) (isFirst : Bool) (value : β) {rest : List Char}
    (hrest : Delimits rest) :
    (readElement c isFirst (separator isFirst ++ (c.write value ++ rest))).toOption =
      (f value).map (·, rest) := by
  rw [readElement, h.nextElement_write]
  exact h.reads value rest hrest

theorem Echoes.pair (h : c.Echoes f) :
    c.pair.Echoes fun (first, second) => do return (← f first, ← f second) where
  begins _ := ⟨_, _, rfl, rfl, by decide⟩
  reads := by
    rintro ⟨first, second⟩ rest -
    let following := separator false ++ (c.write second ++ ']' :: rest)
    have htext : commaSeparated [c.write first, c.write second] ++ [']'] ++ rest =
        separator true ++ (c.write first ++ following) := by
      rw [commaSeparated_append]
      simp [separated, separator, following]
    have hfollowing : Delimits following := delimits_comma _
    have hfirst := h.readElement_eq true first hfollowing
    have hsecond := h.readElement_eq false second (delimits_bracket rest)
    change (readElement c true (commaSeparated [c.write first, c.write second] ++ [']'] ++ rest) >>=
      fun found => readElement c false found.2 >>= fun found' => mark ']' found'.2 >>= fun behind =>
        pure ((found.1, found'.1), behind)).toOption =
          (do return (← f first, ← f second)).map (·, rest)
    rw [toOption_bind, htext, hfirst]
    cases f first with
    | none => rfl
    | some back =>
      change (readElement c false following >>= fun found' => mark ']' found'.2 >>= fun behind =>
        pure ((back, found'.1), behind)).toOption = _
      rw [toOption_bind, hsecond]
      cases f second <;> rfl

end Codec

end LeastCost.Json
