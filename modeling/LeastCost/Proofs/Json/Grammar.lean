import LeastCost.Json.Skip
import LeastCost.Proofs.Json.Numbers
import LeastCost.Proofs.Json.Strings

/-!
# The grammar of JSON

Numbers, strings and nested values as texts, and how blanks may stand between their tokens. A
string is a text of its own kind: it may hold brackets, commas, and escaped quotes.
-/

namespace LeastCost.Json

def Blanks (text : List Char) : Prop := ∀ c ∈ text, isBlank c = true

instance (text : List Char) : Decidable (Blanks text) :=
  decidable_of_iff (text.all isBlank = true) List.all_eq_true

theorem Blanks.nil : Blanks [] := by simp [Blanks]

theorem skipBlanks_append {blanks : List Char} (h : Blanks blanks) (text : List Char) :
    skipBlanks (blanks ++ text) = skipBlanks text :=
  List.dropWhile_append_of_pos h

section Numbers

def IsDigits (text : List Char) : Prop := text ≠ [] ∧ ∀ c ∈ text, c.isDigit = true

inductive IsFraction : List Char → Prop
  | none : IsFraction []
  | point {ds : List Char} : IsDigits ds → IsFraction ('.' :: ds)

inductive IsExponent : List Char → Prop
  | none : IsExponent []
  | letter {c : Char} {sign ds : List Char} : c = 'e' ∨ c = 'E' → sign ∈ [[], ['+'], ['-']] →
      IsDigits ds → IsExponent (c :: (sign ++ ds))

/-- A number: no zero in front of another digit. -/
inductive IsNumber : List Char → Prop
  | mk {whole fraction exponent : List Char} (isNegative : Bool) : IsDigits whole →
      (whole.head? = some '0' → whole = ['0']) → IsFraction fraction → IsExponent exponent →
      IsNumber ((if isNegative then ['-'] else []) ++ (whole ++ (fraction ++ exponent)))

variable {text rest : List Char}

theorem IsDigits.reads (h : IsDigits text) (hrest : ∀ c ∈ rest.head?, c.isDigit = false) :
    digits (text ++ rest) = .ok (text, rest) :=
  digits_append h.1 h.2 hrest

theorem IsDigits.splitSign {sign : List Char} (h : IsDigits text)
    (hsign : sign ∈ [[], ['+'], ['-']]) (rest : List Char) :
    ∃ isNegative, Decimal.splitSign (sign ++ (text ++ rest)) = (isNegative, text ++ rest) := by
  obtain ⟨d, ds, rfl⟩ := List.exists_cons_of_ne_nil h.1
  have hd : d.isDigit = true := h.2 d List.mem_cons_self
  simp only [List.mem_cons, List.not_mem_nil, or_false] at hsign
  rcases hsign with rfl | rfl | rfl
  · refine ⟨false, ?_⟩
    change Decimal.splitSign (d :: (ds ++ rest)) = _
    unfold Decimal.splitSign
    split
    · next heq =>
      obtain rfl := (List.cons.inj heq).1
      exact absurd hd (by decide)
    · next heq =>
      obtain rfl := (List.cons.inj heq).1
      exact absurd hd (by decide)
    · rfl
  · exact ⟨false, rfl⟩
  · exact ⟨true, rfl⟩

theorem IsExponent.reads (h : IsExponent text) (hrest : Delimits rest) :
    ∃ e, exponentPart (text ++ rest) = .ok (e, rest) := by
  cases h with
  | none => exact ⟨Option.none, Numeral.exponentPart_spell Option.none hrest⟩
  | @letter c sign ds hc hsign hds =>
    have hdigits := hds.reads fun c hc => (hrest c hc).1
    obtain ⟨isNegative, hsplit⟩ := hds.splitSign hsign rest
    refine ⟨some (if isNegative then -(Decimal.natOfDigits ds : Int)
      else Decimal.natOfDigits ds), ?_⟩
    simp only [List.cons_append, List.append_assoc, exponentPart, if_pos hc, hsplit, hdigits,
      bind, Except.bind]
    rfl

theorem IsExponent.head (h : IsExponent text) (hrest : Delimits rest) :
    ∀ c ∈ (text ++ rest).head?, c.isDigit = false ∧ c ≠ '.' := by
  cases h with
  | none => exact fun c hc => ⟨(hrest c hc).1, (hrest c hc).2.1⟩
  | letter hc =>
    rintro c ⟨⟩
    rcases hc with rfl | rfl <;> decide

theorem IsFraction.reads (h : IsFraction text)
    (hrest : ∀ c ∈ rest.head?, c.isDigit = false ∧ c ≠ '.') :
    ∃ ds, fractionPart (text ++ rest) = .ok (ds, rest) := by
  cases h with
  | none =>
    have hread := Numeral.fractionPart_spell (List.forall_mem_nil _) hrest
    exact ⟨[], hread⟩
  | point hds => exact ⟨_, hds.reads fun c hc => (hrest c hc).1⟩

theorem IsFraction.head (h : IsFraction text)
    (hrest : ∀ c ∈ rest.head?, c.isDigit = false ∧ c ≠ '.') :
    ∀ c ∈ (text ++ rest).head?, c.isDigit = false := by
  cases h with
  | none => exact fun c hc => (hrest c hc).1
  | point hds =>
    rintro c ⟨⟩
    decide

theorem IsNumber.reads (h : IsNumber text) (hrest : Delimits rest) :
    ∃ n, Numeral.read (text ++ rest) = .ok (n, rest) := by
  obtain ⟨isNegative, hwhole, hzero, hfraction, hexponent⟩ := h
  next whole fraction exponent =>
  have hhead := hexponent.head hrest
  obtain ⟨e, he⟩ := hexponent.reads hrest
  obtain ⟨ds, hds⟩ := hfraction.reads hhead
  have hread := Numeral.wholePart_append hwhole.1 hwhole.2 hzero (hfraction.head hhead)
  have hsign : (whole ++ (fraction ++ (exponent ++ rest))).head? ≠ some '-' := by
    obtain ⟨c, cs, hc⟩ := List.exists_cons_of_ne_nil hwhole.1
    have hdigit := hwhole.2 c (hc ▸ List.mem_cons_self)
    rw [hc]
    rintro ⟨⟩
    exact absurd hdigit (by decide)
  refine ⟨⟨isNegative, whole, ds, e⟩, ?_⟩
  simp only [List.append_assoc]
  rw [Numeral.read_sign isNegative hsign, hread]
  simp only [hds, he, bind, Except.bind]
  rfl

theorem IsNumber.begins (h : IsNumber text) :
    ∃ first tail, text = first :: tail ∧ (first = '-' ∨ first.isDigit) := by
  obtain ⟨isNegative, hwhole, -⟩ := h
  obtain ⟨c, cs, rfl⟩ := List.exists_cons_of_ne_nil hwhole.1
  cases isNegative with
  | true => exact ⟨'-', _, rfl, Or.inl rfl⟩
  | false => exact ⟨c, _, rfl, Or.inr (hwhole.2 c List.mem_cons_self)⟩

theorem Numeral.WellFormed.isNumber {n : Numeral} (h : n.WellFormed) : IsNumber n.spell := by
  refine .mk n.isNegative ⟨h.whole_ne_nil, h.whole_isDigit⟩ h.head ?_ ?_
  · cases hfraction : n.fraction with
    | nil => exact .none
    | cons d ds =>
      exact .point ⟨List.cons_ne_nil _ _, hfraction ▸ h.fraction_isDigit⟩
  · cases n.exponent with
    | none => exact .none
    | some e =>
      have hds : IsDigits (Nat.toDigits 10 e.natAbs) :=
        ⟨Nat.toDigits_ne_nil, fun c hc => Decimal.isDigit_of_mem_toDigits hc⟩
      by_cases he : e < 0
      · simpa [Numeral.spellExponent, he] using
          @IsExponent.letter 'e' ['-'] _ (Or.inl rfl) (by simp) hds
      · simpa [Numeral.spellExponent, he] using
          @IsExponent.letter 'e' ['+'] _ (Or.inl rfl) (by simp) hds

end Numbers

section Strings

/-- Four hexadecimal digits of a code unit. -/
def IsQuad (quad : List Char) (unit : Nat) : Prop :=
  ∃ a b c d, quad.map hexDigit? = [some a, some b, some c, some d] ∧
    unit = 16 * (16 * (16 * a + b) + c) + d

/-- The rest of a string behind its opening quote. Surrogates need not be paired. -/
inductive IsQuoted : List Char → Prop
  | close : IsQuoted ['"']
  | plain {c : Char} {text : List Char} : ¬c.toNat < 0x20 → c ≠ '"' → c ≠ '\\' → IsQuoted text →
      IsQuoted (c :: text)
  | short {c : Char} {text : List Char} : (shortEscape? c).isSome → IsQuoted text →
      IsQuoted ('\\' :: c :: text)
  | unit {quad text : List Char} {n : Nat} : IsQuad quad n → IsQuoted text →
      IsQuoted ('\\' :: 'u' :: (quad ++ text))

/-- The rest of a string behind its opening quote, and the characters that it stands for. -/
inductive Spells : List Char → List Char → Prop
  | close : Spells ['"'] []
  | plain {c : Char} {text chars : List Char} : ¬c.toNat < 0x20 → c ≠ '"' → c ≠ '\\' →
      Spells text chars → Spells (c :: text) (c :: chars)
  | short {c meant : Char} {text chars : List Char} : shortEscape? c = some meant →
      Spells text chars → Spells ('\\' :: c :: text) (meant :: chars)
  | unit {quad text chars : List Char} {n : Nat} : IsQuad quad n → isLeading n = false →
      isTrailing n = false → Spells text chars →
      Spells ('\\' :: 'u' :: (quad ++ text)) (Char.ofNat n :: chars)
  | pair {quad quad' text chars : List Char} {n n' : Nat} : IsQuad quad n → IsQuad quad' n' →
      isLeading n = true → isTrailing n' = true → Spells text chars →
      Spells ('\\' :: 'u' :: (quad ++ '\\' :: 'u' :: (quad' ++ text)))
        (Char.ofNat (0x10000 + 0x400 * (n - 0xD800) + (n' - 0xDC00)) :: chars)

variable {text chars rest : List Char} {c : Char} {n : Nat}

theorem Spells.isQuoted (h : Spells text chars) : IsQuoted text := by
  induction h with
  | close => exact .close
  | plain h1 h2 h3 _ ih => exact .plain h1 h2 h3 ih
  | short h _ ih => exact .short (h ▸ rfl) ih
  | unit h _ _ _ ih => exact .unit h ih
  | pair h h' _ _ _ ih => exact .unit h (.unit h' ih)

theorem IsQuad.exists_eq {quad : List Char} (h : IsQuad quad n) :
    ∃ a b c d, quad = [a, b, c, d] := by
  obtain ⟨a, b, c, d, hmap, -⟩ := h
  have hlength : quad.length = 4 := by simpa using congrArg List.length hmap
  match quad, hlength with
  | [a, b, c, d], _ => exact ⟨a, b, c, d, rfl⟩

theorem IsQuad.reads {quad : List Char} (h : IsQuad quad n) (rest : List Char) :
    hexQuad (quad ++ rest) = .ok (n, rest) := by
  obtain ⟨w, x, y, z, rfl⟩ := h.exists_eq
  obtain ⟨a, b, c, d, hmap, rfl⟩ := h
  simp only [List.map_cons, List.map_nil, List.cons.injEq, and_true] at hmap
  obtain ⟨hw, hx, hy, hz⟩ := hmap
  simp [hexQuad, hw, hx, hy, hz]

theorem isQuad_of_hexQuad {text : List Char} (h : hexQuad text = .ok (n, rest)) :
    ∃ quad, IsQuad quad n ∧ text = quad ++ rest := by
  unfold hexQuad at h
  dsimp only at h
  split at h
  · next hlength =>
    have hle : ((text.take 4).filterMap hexDigit?).length ≤ (text.take 4).length :=
      List.length_filterMap_le _ _
    rw [hlength, List.length_take] at hle
    match text, hle with
    | w :: x :: y :: z :: text, _ =>
      have hall : ∀ c ∈ [w, x, y, z], (hexDigit? c).isSome :=
        List.filterMap_length_eq_length.mp hlength
      simp only [List.forall_mem_cons, Option.isSome_iff_exists] at hall
      obtain ⟨⟨a, ha⟩, ⟨b, hb⟩, ⟨c, hc⟩, ⟨d, hd⟩, -⟩ := hall
      simp only [List.take_succ_cons, List.take_zero, List.filterMap_cons, ha, hb, hc, hd,
        List.filterMap_nil] at h
      obtain ⟨rfl, rfl⟩ := Prod.mk.inj (Except.ok.inj h)
      exact ⟨[w, x, y, z], ⟨a, b, c, d, by simp [ha, hb, hc, hd], by simp⟩, rfl⟩
  · split at h <;> cases h

theorem escape_short {meant : Char} (h : shortEscape? c = some meant) (rest : List Char) :
    escape (c :: rest) = .ok (meant, rest) := by
  unfold escape
  split
  · next heq => cases heq
  · next heq =>
    obtain rfl := (List.cons.inj heq).1
    cases (show none = some meant from h)
  · next heq =>
    obtain ⟨rfl, rfl⟩ := List.cons.inj heq
    rw [h]

theorem escape_unit {quad : List Char} (h : IsQuad quad n) (hl : isLeading n = false)
    (ht : isTrailing n = false) (rest : List Char) :
    escape ('u' :: (quad ++ rest)) = .ok (Char.ofNat n, rest) := by
  simp only [escape, unicodeEscape, h.reads, bind, Except.bind, ht, hl, Bool.false_eq_true,
    if_false]
  rfl

theorem escape_pair {quad quad' : List Char} {n' : Nat} (h : IsQuad quad n) (h' : IsQuad quad' n')
    (hl : isLeading n = true) (ht : isTrailing n' = true) (rest : List Char) :
    escape ('u' :: (quad ++ '\\' :: 'u' :: (quad' ++ rest))) =
      .ok (Char.ofNat (0x10000 + 0x400 * (n - 0xD800) + (n' - 0xDC00)), rest) := by
  have htrailing : isTrailing n = false := by
    simp only [isLeading, isTrailing, Bool.and_eq_true, decide_eq_true_eq] at hl ⊢
    simp
    omega
  have hword : word ['\\', 'u'] ('\\' :: 'u' :: (quad' ++ rest)) = .ok (quad' ++ rest) := rfl
  simp only [escape, unicodeEscape, h.reads, bind, Except.bind, htrailing, hl, hword, h'.reads, ht,
    Bool.false_eq_true, if_false, if_true]
  rfl

theorem Spells.reads (h : Spells text chars) (rest : List Char) {fuel : Nat}
    (hfuel : text.length ≤ fuel) : stringBody fuel (text ++ rest) = .ok (chars, rest) := by
  induction h generalizing fuel with
  | close =>
    obtain ⟨fuel, rfl⟩ := Nat.exists_eq_succ_of_ne_zero (Nat.ne_zero_of_lt hfuel)
    rfl
  | plain hplain hquote hslash _ ih =>
    obtain ⟨fuel, rfl⟩ := Nat.exists_eq_succ_of_ne_zero (Nat.ne_zero_of_lt hfuel)
    rw [List.cons_append, stringBody, if_neg hplain, ih (Nat.le_of_succ_le_succ hfuel)]
    · rfl
    · exact hquote
    · exact hslash
  | @short c meant text chars hshort _ ih =>
    obtain ⟨fuel, rfl⟩ := Nat.exists_eq_succ_of_ne_zero (Nat.ne_zero_of_lt hfuel)
    have hle : text.length ≤ fuel := by
      simp only [List.length_cons] at hfuel
      omega
    simp only [List.cons_append, stringBody, escape_short hshort, ih hle, bind, Except.bind]
    rfl
  | @unit quad text chars n hquad hl ht _ ih =>
    obtain ⟨fuel, rfl⟩ := Nat.exists_eq_succ_of_ne_zero (Nat.ne_zero_of_lt hfuel)
    have hle : text.length ≤ fuel := by
      simp only [List.length_cons, List.length_append] at hfuel
      omega
    simp only [List.cons_append, List.append_assoc, stringBody, escape_unit hquad hl ht, ih hle,
      bind, Except.bind]
    rfl
  | @pair quad quad' text chars n n' hquad hquad' hl ht _ ih =>
    obtain ⟨fuel, rfl⟩ := Nat.exists_eq_succ_of_ne_zero (Nat.ne_zero_of_lt hfuel)
    have hle : text.length ≤ fuel := by
      simp only [List.length_cons, List.length_append] at hfuel
      omega
    simp only [List.cons_append, List.append_assoc, stringBody, escape_pair hquad hquad' hl ht,
      ih hle, bind, Except.bind]
    rfl

theorem eq_of_word {expected : List Char} (h : word expected text = .ok rest) :
    text = expected ++ rest := by
  induction expected generalizing text with
  | nil => exact Except.ok.inj h
  | cons c expected ih =>
    cases text with
    | nil => cases h
    | cons d text =>
      rw [word] at h
      split at h
      · next heq => rw [List.cons_append, ← heq, ← ih h]
      · cases h

theorem unicodeEscape_eq_ok (h : unicodeEscape text = .ok (c, rest)) :
    (∃ quad n, IsQuad quad n ∧ isLeading n = false ∧ isTrailing n = false ∧
      c = Char.ofNat n ∧ text = quad ++ rest) ∨
    (∃ quad quad' n n', IsQuad quad n ∧ IsQuad quad' n' ∧ isLeading n = true ∧
      isTrailing n' = true ∧ c = Char.ofNat (0x10000 + 0x400 * (n - 0xD800) + (n' - 0xDC00)) ∧
      text = quad ++ '\\' :: 'u' :: (quad' ++ rest)) := by
  obtain ⟨⟨n, behind⟩, hfirst, hnext⟩ := bind_eq_ok.mp h
  obtain ⟨quad, hquad, rfl⟩ := isQuad_of_hexQuad hfirst
  clear h
  dsimp only at hnext
  have ht : isTrailing n = false := by
    by_contra hn
    rw [if_pos ((Bool.not_eq_false _).mp hn)] at hnext
    cases hnext
  simp only [ht, Bool.false_eq_true, if_false] at hnext
  cases hl : isLeading n with
  | false =>
    simp only [hl, Bool.false_eq_true, if_false] at hnext
    obtain ⟨rfl, rfl⟩ := Prod.mk.inj (Except.ok.inj hnext)
    exact Or.inl ⟨quad, n, hquad, hl, ht, rfl, rfl⟩
  | true =>
    simp only [hl, if_true] at hnext
    obtain ⟨behind', hword, hnext⟩ := bind_eq_ok.mp hnext
    obtain rfl := eq_of_word hword
    obtain ⟨⟨n', behind⟩, hsecond, hnext⟩ := bind_eq_ok.mp hnext
    obtain ⟨quad', hquad', rfl⟩ := isQuad_of_hexQuad hsecond
    cases ht' : isTrailing n' with
    | false =>
      simp only [ht'] at hnext
      cases hnext
    | true =>
      simp only [ht', if_true] at hnext
      obtain ⟨rfl, rfl⟩ := Prod.mk.inj (Except.ok.inj hnext)
      exact Or.inr ⟨quad, quad', n, n', hquad, hquad', hl, ht', rfl, rfl⟩

theorem spells_escape {body : List Char} (h : escape text = .ok (c, rest))
    (hbody : Spells body chars) :
    ∃ front, Spells ('\\' :: (front ++ body)) (c :: chars) ∧ text = front ++ rest := by
  unfold escape at h
  split at h
  · cases h
  · rcases unicodeEscape_eq_ok h with ⟨quad, n, hquad, hl, ht, hc, rfl⟩ |
      ⟨quad, quad', n, n', hquad, hquad', hl, ht', hc, rfl⟩
    · refine ⟨'u' :: quad, ?_, by simp⟩
      exact hc ▸ .unit hquad hl ht hbody
    · refine ⟨'u' :: (quad ++ '\\' :: 'u' :: quad'), ?_, by simp⟩
      simpa [hc] using Spells.pair hquad hquad' hl ht' hbody
  · next d text _ =>
    split at h
    · next meant hshort =>
      obtain ⟨rfl, rfl⟩ := Prod.mk.inj (Except.ok.inj h)
      exact ⟨[d], .short hshort hbody, rfl⟩
    · cases h

theorem spells_of_stringBody {fuel : Nat} (h : stringBody fuel text = .ok (chars, rest)) :
    ∃ body, Spells body chars ∧ text = body ++ rest := by
  fun_induction stringBody fuel text generalizing chars with
  | case1 | case2 => cases h
  | case3 fuel behind =>
    obtain ⟨rfl, rfl⟩ := Prod.mk.inj (Except.ok.inj h)
    exact ⟨_, .close, rfl⟩
  | case4 fuel behind ih =>
    obtain ⟨⟨c, behind⟩, hescape, h⟩ := bind_eq_ok.mp h
    obtain ⟨⟨chars, behind⟩, hbody, h⟩ := bind_eq_ok.mp h
    obtain ⟨rfl, rfl⟩ := Prod.mk.inj (Except.ok.inj h)
    obtain ⟨body, hspells, rfl⟩ := ih _ hbody
    obtain ⟨front, hfront, rfl⟩ := spells_escape hescape hspells
    exact ⟨_, hfront, by simp⟩
  | case5 => cases h
  | case6 fuel c behind hquote hslash hplain ih =>
    obtain ⟨⟨chars, behind⟩, hbody, h⟩ := bind_eq_ok.mp h
    obtain ⟨rfl, rfl⟩ := Prod.mk.inj (Except.ok.inj h)
    obtain ⟨body, hspells, rfl⟩ := ih hbody
    exact ⟨_, .plain hplain hquote hslash hspells, rfl⟩

theorem IsQuoted.skips (h : IsQuoted text) (rest : List Char) {fuel : Nat}
    (hfuel : text.length ≤ fuel) : skipStringBody fuel (text ++ rest) = .ok rest := by
  induction h generalizing fuel with
  | close =>
    obtain ⟨fuel, rfl⟩ := Nat.exists_eq_succ_of_ne_zero (Nat.ne_zero_of_lt hfuel)
    rfl
  | plain hplain hquote hslash _ ih =>
    obtain ⟨fuel, rfl⟩ := Nat.exists_eq_succ_of_ne_zero (Nat.ne_zero_of_lt hfuel)
    rw [List.cons_append, skipStringBody, if_neg hplain, ih (Nat.le_of_succ_le_succ hfuel)]
    · exact hquote
    · exact hslash
  | @short c text hshort _ ih =>
    obtain ⟨fuel, rfl⟩ := Nat.exists_eq_succ_of_ne_zero (Nat.ne_zero_of_lt hfuel)
    have hle : text.length ≤ fuel := by
      simp only [List.length_cons] at hfuel
      omega
    have hskip : skipEscape (c :: (text ++ rest)) = .ok (text ++ rest) := by
      rw [skipEscape, if_pos hshort]
      rintro rfl
      exact absurd hshort (by decide)
    simp only [List.cons_append, skipStringBody, hskip, bind, Except.bind]
    exact ih hle
  | @unit quad text n hquad _ ih =>
    obtain ⟨fuel, rfl⟩ := Nat.exists_eq_succ_of_ne_zero (Nat.ne_zero_of_lt hfuel)
    have hle : text.length ≤ fuel := by
      simp only [List.length_cons, List.length_append] at hfuel
      omega
    simp only [List.cons_append, List.append_assoc, skipStringBody, skipEscape, hquad.reads,
      Except.map, bind, Except.bind]
    exact ih hle

theorem isQuad_control :
    ∀ n < 0x20, IsQuad ['0', '0', hexDigit (n / 16), hexDigit (n % 16)] n ∧
      isLeading n = false ∧ isTrailing n = false := by
  intro n hn
  refine ⟨⟨0, 0, n / 16, n % 16, ?_, by omega⟩, ?_, ?_⟩
  · revert n
    decide
  · simp [isLeading]
    omega
  · simp [isTrailing]
    omega

/-- Strings are written as they are spelled. -/
theorem spells_write (chars : List Char) : Spells (chars.flatMap writeChar ++ ['"']) chars := by
  induction chars with
  | nil => exact .close
  | cons c chars ih =>
    rw [List.flatMap_cons, List.append_assoc]
    unfold writeChar
    split
    case h_8 hquote hslash _ _ _ _ _ =>
      split
      · next hcontrol =>
        obtain ⟨hquad, hl, ht⟩ := isQuad_control _ hcontrol
        have hspells := Spells.unit hquad hl ht ih
        rwa [Char.ofNat_toNat] at hspells
      · next hplain => exact .plain hplain hquote hslash ih
    all_goals exact .short rfl ih

end Strings

section Values

inductive IsScalar : List Char → Prop
  | null : IsScalar ['n', 'u', 'l', 'l']
  | true : IsScalar ['t', 'r', 'u', 'e']
  | false : IsScalar ['f', 'a', 'l', 's', 'e']
  | number {text : List Char} : IsNumber text → IsScalar text
  | string {text : List Char} : IsQuoted text → IsScalar ('"' :: text)

/-- An element of an array: a value as it is without blanks, and as it stands in a text. -/
structure Item where
  before : List Char
  compact : List Char
  text : List Char
  after : List Char

/-- A member of an object: a key behind its opening quote, and a value. -/
structure Entry extends Item where
  lead : List Char
  key : List Char
  gap : List Char

def Item.spaced (i : Item) : List Char := i.before ++ (i.text ++ i.after)

def Entry.compactMember (e : Entry) : List Char := '"' :: (e.key ++ ':' :: e.compact)

def Entry.spacedMember (e : Entry) : List Char :=
  e.lead ++ '"' :: (e.key ++ (e.gap ++ ':' :: e.spaced))

structure Item.Around (i : Item) : Prop where
  before : Blanks i.before
  after : Blanks i.after

structure Entry.Around (e : Entry) : Prop extends e.toItem.Around where
  lead : Blanks e.lead
  quoted : IsQuoted e.key
  gap : Blanks e.gap

/-- The second text is the value that is the first one, with blanks put between tokens. -/
inductive Spaced : List Char → List Char → Prop
  | scalar {text : List Char} : IsScalar text → Spaced text text
  | array {lead : List Char} {items : List Item} : Blanks lead → (∀ i ∈ items, i.Around) →
      (∀ i ∈ items, Spaced i.compact i.text) →
      Spaced ('[' :: (commaSeparated (items.map (·.compact)) ++ [']']))
        ('[' :: (lead ++ (commaSeparated (items.map Item.spaced) ++ [']'])))
  | object {lead : List Char} {entries : List Entry} : Blanks lead → (∀ e ∈ entries, e.Around) →
      (∀ e ∈ entries, Spaced e.compact e.text) →
      Spaced ('\x7b' :: (commaSeparated (entries.map Entry.compactMember) ++ ['\x7d']))
        ('\x7b' :: (lead ++ (commaSeparated (entries.map Entry.spacedMember) ++ ['\x7d'])))

def IsCompact (text : List Char) : Prop := Spaced text text

def Item.plain (text : List Char) : Item := ⟨[], text, text, []⟩

theorem isCompact_array {texts : List (List Char)} (h : ∀ t ∈ texts, IsCompact t) :
    IsCompact ('[' :: (commaSeparated texts ++ [']'])) := by
  have harray := @Spaced.array [] (texts.map Item.plain) .nil
    (List.forall_mem_map.mpr fun t _ => ⟨.nil, .nil⟩) (List.forall_mem_map.mpr h)
  simpa [IsCompact, Function.comp_def, Item.plain, Item.spaced] using harray

theorem Spaced.begins {compact text : List Char} (h : Spaced compact text) :
    ∃ first tail tail', compact = first :: tail ∧ text = first :: tail' ∧
      isBlank first = false ∧ first ≠ ']' := by
  cases h with
  | scalar h =>
    cases h with
    | null | true | false => exact ⟨_, _, _, rfl, rfl, by decide, by decide⟩
    | number h =>
      obtain ⟨first, tail, htext, hfirst⟩ := h.begins
      exact ⟨first, tail, tail, htext, htext, (Codec.not_blank hfirst).1,
        (Codec.not_blank hfirst).2.1⟩
    | string h => exact ⟨_, _, _, rfl, rfl, by decide, by decide⟩
  | array | object => exact ⟨_, _, _, rfl, rfl, by decide, by decide⟩

end Values

end LeastCost.Json
