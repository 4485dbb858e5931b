import LeastCost.Json.Codec
import LeastCost.Proofs.Decimal.Digits
import LeastCost.Proofs.Double.Quotients

/-!
# Reading numerals

A well-formed numeral is read from its spelling, up to the first character that cannot belong to
it. It has a value as a binary number unless it comes close to overflow, since the digits that
are read first never stand for more than the numeral does. The value is always finite.
-/

namespace LeastCost.Json

open Decimal

/-- Nothing that could be taken for a further part of a numeral follows. -/
def Delimits (rest : List Char) : Prop :=
  ∀ c ∈ rest.head?, c.isDigit = false ∧ c ≠ '.' ∧ c ≠ 'e' ∧ c ≠ 'E'

theorem Delimits.nil : Delimits [] := by simp [Delimits]

theorem Delimits.cons {c : Char} {rest : List Char} (h : c.isDigit = false)
    (hp : c ≠ '.') (he : c ≠ 'e') (hE : c ≠ 'E') : Delimits (c :: rest) := by
  simpa [Delimits] using ⟨h, hp, he, hE⟩

theorem digits_append {ds rest : List Char} (hne : ds ≠ []) (hds : ∀ c ∈ ds, c.isDigit)
    (hrest : ∀ c ∈ rest.head?, c.isDigit = false) : digits (ds ++ rest) = .ok (ds, rest) := by
  have hsplit : splitDigits (ds ++ rest) = (ds, rest) := by
    have htake : rest.takeWhile Char.isDigit = [] := by
      cases rest with
      | nil => rfl
      | cons c rest => simp [hrest c rfl]
    have hdrop : rest.dropWhile Char.isDigit = rest := by
      cases rest with
      | nil => rfl
      | cons c rest => simp [hrest c rfl]
    rw [splitDigits, List.takeWhile_append_of_pos hds, List.dropWhile_append_of_pos hds, htake,
      hdrop, List.append_nil]
  unfold digits
  rw [hsplit]
  cases ds with
  | nil => exact absurd rfl hne
  | cons d ds => rfl

namespace Numeral

structure WellFormed (n : Numeral) : Prop where
  whole_ne_nil : n.whole ≠ []
  whole_isDigit : ∀ c ∈ n.whole, c.isDigit
  head : n.whole.head? = some '0' → n.whole = ['0']
  fraction_isDigit : ∀ c ∈ n.fraction, c.isDigit

def spellFraction : List Char → List Char
  | [] => []
  | fraction => '.' :: fraction

def spellExponent : Option Int → List Char
  | none => []
  | some e => 'e' :: (if e < 0 then '-' else '+') :: Nat.toDigits 10 e.natAbs

def body (n : Numeral) : List Char :=
  n.whole ++ (spellFraction n.fraction ++ spellExponent n.exponent)

def spell (n : Numeral) : List Char := (if n.isNegative then ['-'] else []) ++ n.body

/-- The magnitude that a numeral stands for. -/
def size (n : Numeral) : Rat :=
  natOfDigits (n.whole ++ n.fraction) * 10 ^ (n.exponent.getD 0 - n.fraction.length)

section Reading

variable {n : Numeral} {rest : List Char}

theorem exponentPart_spell (exponent : Option Int) (hrest : Delimits rest) :
    exponentPart (spellExponent exponent ++ rest) = .ok (exponent, rest) := by
  cases exponent with
  | none =>
    cases rest with
    | nil => rfl
    | cons c rest =>
      obtain ⟨-, -, he, hE⟩ := hrest c rfl
      simp [spellExponent, exponentPart, he, hE]
  | some e =>
    have hdigits : digits (Nat.toDigits 10 e.natAbs ++ rest) =
        .ok (Nat.toDigits 10 e.natAbs, rest) :=
      digits_append Nat.toDigits_ne_nil (fun c hc => isDigit_of_mem_toDigits hc)
        fun c hc => (hrest c hc).1
    by_cases hneg : e < 0
    · simp [spellExponent, exponentPart, hneg, splitSign, hdigits, abs_of_neg hneg]
    · simp [spellExponent, exponentPart, hneg, splitSign, hdigits, abs_of_nonneg (not_lt.mp hneg)]

theorem exponent_head (exponent : Option Int) (hrest : Delimits rest) :
    ∀ c ∈ (spellExponent exponent ++ rest).head?, c.isDigit = false ∧ c ≠ '.' := by
  cases exponent with
  | none => exact fun c hc => ⟨(hrest c hc).1, (hrest c hc).2.1⟩
  | some e =>
    rintro c ⟨⟩
    decide

theorem fractionPart_spell {fraction : List Char} (hf : ∀ c ∈ fraction, c.isDigit)
    (hrest : ∀ c ∈ rest.head?, c.isDigit = false ∧ c ≠ '.') :
    fractionPart (spellFraction fraction ++ rest) = .ok (fraction, rest) := by
  cases fraction with
  | nil =>
    cases rest with
    | nil => rfl
    | cons c rest =>
      have hc := (hrest c rfl).2
      change fractionPart (c :: rest) = _
      unfold fractionPart
      split
      · next heq => exact absurd (List.cons.inj heq).1 hc
      · rfl
  | cons d fraction =>
    exact digits_append (List.cons_ne_nil d fraction) hf fun c hc => (hrest c hc).1

theorem fraction_head (fraction : List Char)
    (hrest : ∀ c ∈ rest.head?, c.isDigit = false ∧ c ≠ '.') :
    ∀ c ∈ (spellFraction fraction ++ rest).head?, c.isDigit = false := by
  cases fraction with
  | nil => exact fun c hc => (hrest c hc).1
  | cons d fraction =>
    rintro c ⟨⟩
    decide

theorem wholePart_append {whole : List Char} (hne : whole ≠ []) (hds : ∀ c ∈ whole, c.isDigit)
    (hhead : whole.head? = some '0' → whole = ['0'])
    (hrest : ∀ c ∈ rest.head?, c.isDigit = false) :
    wholePart (whole ++ rest) = .ok (whole, rest) := by
  have hcond : ¬(whole.head? = some '0' ∧ whole ≠ ['0']) := fun ⟨h0, hne⟩ => hne (hhead h0)
  simp only [wholePart, digits_append hne hds hrest, bind, Except.bind]
  rw [if_neg hcond]
  rfl

theorem read_sign (isNegative : Bool) {text : List Char} (h : text.head? ≠ some '-') :
    read ((if isNegative then ['-'] else []) ++ text) = do
      let (whole, rest) ← wholePart text
      let (fraction, rest) ← fractionPart rest
      let (exponent, rest) ← exponentPart rest
      return (⟨isNegative, whole, fraction, exponent⟩, rest) := by
  cases isNegative with
  | true => rfl
  | false =>
    cases text with
    | nil => rfl
    | cons c text =>
      have hc : c ≠ '-' := fun hc => h (congrArg some hc)
      change read (c :: text) = _
      unfold read
      split
      next heq =>
        split at heq
        · next hcons => exact absurd (List.cons.inj hcons).1 hc
        · obtain ⟨rfl, rfl⟩ := Prod.mk.inj heq
          rfl

/-- A numeral is read from its spelling. -/
theorem read_spell (h : n.WellFormed) (hrest : Delimits rest) :
    read (n.spell ++ rest) = .ok (n, rest) := by
  have hexp := exponentPart_spell n.exponent hrest
  have hexp' := exponent_head n.exponent hrest
  have hfrac := fractionPart_spell h.fraction_isDigit hexp'
  have hwhole := wholePart_append h.whole_ne_nil h.whole_isDigit h.head
    (fraction_head n.fraction hexp')
  have hhead : (n.whole ++ (spellFraction n.fraction ++ (spellExponent n.exponent ++ rest))).head? ≠
      some '-' := by
    obtain ⟨c, cs, hc⟩ := List.exists_cons_of_ne_nil h.whole_ne_nil
    have hdigit := h.whole_isDigit c (hc ▸ List.mem_cons_self)
    rw [hc]
    rintro ⟨⟩
    exact absurd hdigit (by decide)
  rw [spell, body, List.append_assoc, List.append_assoc, List.append_assoc, read_sign _ hhead,
    hwhole]
  simp only [hfrac, hexp, bind, Except.bind, pure, Except.pure]

theorem spell_eq_cons (h : n.WellFormed) :
    ∃ first tail, n.spell = first :: tail ∧ (first = '-' ∨ first.isDigit) := by
  obtain ⟨c, cs, hc⟩ := List.exists_cons_of_ne_nil h.whole_ne_nil
  have hdigit := h.whole_isDigit c (hc ▸ List.mem_cons_self)
  cases hneg : n.isNegative with
  | true => exact ⟨'-', n.body, by simp [spell, hneg], Or.inl rfl⟩
  | false =>
    exact ⟨c, cs ++ (spellFraction n.fraction ++ spellExponent n.exponent),
      by simp [spell, body, hneg, hc], Or.inr hdigit⟩

end Reading

section Values

variable {n : Numeral} {ds : List Char} {start : Nat}

/-- What is absorbed fits, and it never stands for more than all the digits do. -/
theorem absorb_spec (start : Nat) (ds : List Char) (hstart : start < significandBound) :
    (absorb start ds).1 < significandBound ∧
      (absorb start ds).2.length ≤ ds.length ∧
      (absorb start ds).1 * 10 ^ (absorb start ds).2.length ≤
        start * 10 ^ ds.length + natOfDigits ds := by
  induction ds generalizing start with
  | nil => simp [absorb, hstart]
  | cons c ds ih =>
    rw [absorb]
    split
    · next hlt =>
      obtain ⟨h1, h2, h3⟩ := ih _ hlt
      exact ⟨h1, h2.trans (Nat.le_succ _), natOfDigits_cons start c ds ▸ h3⟩
    · exact ⟨hstart, le_rfl, Nat.le_add_right _ _⟩

theorem absorb_eq (h : start * 10 ^ ds.length + natOfDigits ds < significandBound) :
    absorb start ds = (start * 10 ^ ds.length + natOfDigits ds, []) := by
  induction ds generalizing start with
  | nil => simp [absorb]
  | cons c ds ih =>
    rw [natOfDigits_cons] at h ⊢
    have hlt : 10 * start + (c.toNat - '0'.toNat) < significandBound :=
      (Nat.le_mul_of_pos_right _ (by positivity)).trans_lt ((Nat.le_add_right _ _).trans_lt h)
    rw [absorb, if_pos hlt, ih h]

theorem scale_ok {significand : Nat} {power : Int} (hlt : significand < significandBound)
    (h : (significand : Rat) * 10 ^ power ≤ Double.reach) :
    ∃ x, scale significand power = .ok x := by
  unfold scale
  dsimp only
  split
  · exact ⟨_, rfl⟩
  · next hneg =>
    split
    · next hle =>
      have hword : significand.toUInt64.toNat = significand := Nat.mod_eq_of_lt hlt
      have hpower : power = power.natAbs := by omega
      rw [Double.isInf_toFloat_mul_power (by omega) (by rwa [hword, ← zpow_natCast, ← hpower])]
      exact ⟨_, rfl⟩
    · next hlarge =>
      -- Only zero is that small.
      have hzero : significand = 0 := by
        by_contra hne
        have hone : (1 : Rat) ≤ significand := by exact_mod_cast Nat.pos_of_ne_zero hne
        have hpower : (10 : Rat) ^ 309 ≤ 10 ^ power := by
          rw [← zpow_natCast]
          exact zpow_le_zpow_right₀ (by norm_num) (by omega)
        have : (10 : Rat) ^ 309 ≤ significand * 10 ^ power :=
          hpower.trans (le_mul_of_one_le_left (zpow_pos (by norm_num) _).le hone)
        exact absurd (this.trans h) (not_le.mpr Double.reach_lt_power)
      rw [hzero]
      exact ⟨_, if_pos (by decide)⟩

/-- The digits that are absorbed, at their place, stand for no more than the numeral does. -/
theorem absorbed_le_size {kept : Nat} {dropped : List Char}
    (hwhole : natOfDigits n.whole < significandBound)
    (h : absorb (natOfDigits n.whole) n.fraction = (kept, dropped)) :
    kept < significandBound ∧ dropped.length ≤ n.fraction.length ∧
      (kept : Rat) * 10 ^ (dropped.length + (n.exponent.getD 0 - n.fraction.length)) ≤ n.size := by
  obtain ⟨hlt, hlength, hle⟩ := h ▸ absorb_spec (natOfDigits n.whole) n.fraction hwhole
  refine ⟨hlt, hlength, ?_⟩
  have hle' : (kept : Rat) * 10 ^ dropped.length ≤
      natOfDigits n.whole * 10 ^ n.fraction.length + natOfDigits n.fraction := by
    exact_mod_cast hle
  rw [zpow_add₀ (by norm_num), zpow_natCast, ← mul_assoc, size, natOfDigits_append]
  push_cast
  exact mul_le_mul_of_nonneg_right hle' (zpow_pos (by norm_num) _).le

/-- A numeral has a value if its whole part fits the significand and it keeps within reach. -/
theorem toFloat_ok (hwhole : natOfDigits n.whole < significandBound)
    (hsize : n.size ≤ Double.reach) : ∃ x, n.toFloat = .ok x := by
  have hfirst : absorb 0 n.whole = (natOfDigits n.whole, []) := by
    rw [absorb_eq (by omega), Nat.zero_mul, Nat.zero_add]
  obtain ⟨kept, dropped, hsecond⟩ : ∃ kept dropped,
      absorb (natOfDigits n.whole) n.fraction = (kept, dropped) := ⟨_, _, rfl⟩
  obtain ⟨hlt, hlength, hle⟩ := absorbed_le_size hwhole hsecond
  obtain ⟨x, hx⟩ := scale_ok hlt (hle.trans hsize)
  have hpower : (([] : List Char).length : Int) - (n.fraction.length - dropped.length : Nat) +
      n.exponent.getD 0 = dropped.length + (n.exponent.getD 0 - n.fraction.length) := by
    rw [List.length_nil]
    omega
  refine ⟨if n.isNegative then -x else x, ?_⟩
  unfold toFloat
  rw [hfirst]
  dsimp only
  rw [hsecond]
  dsimp only
  rw [hpower, hx]
  rfl

end Values

section Finiteness

variable {x : Float}

theorem isFinite_divideByPower {power : Nat} (h : Double.Bounded 13 x) :
    (divideByPower x power).isFinite = true := by
  induction power using Nat.strong_induction_on generalizing x with
  | _ power ih =>
    rw [divideByPower]
    split
    · next hpower =>
      exact (h.div (Double.fromOne_power hpower) (by norm_num) (by norm_num)).isFinite
    · next hpower =>
      split
      · exact h.isFinite
      · exact ih (power - 308) (by omega) (h.div_greatest (by norm_num) (by norm_num))

theorem isFinite_of_scale {significand : Nat} {power : Int}
    (h : scale significand power = .ok x) : x.isFinite = true := by
  have hword := Double.bounded_toFloat significand.toUInt64
  unfold scale at h
  dsimp only at h
  split at h
  · obtain rfl := Except.ok.inj h
    exact isFinite_divideByPower hword
  · split at h
    · split at h
      · cases h
      · next hinf =>
        obtain rfl := Except.ok.inj h
        exact hword.isFinite_mul (Double.fromOne_power (by omega)) ((Bool.not_eq_true _).mp hinf)
    · split at h
      · obtain rfl := Except.ok.inj h
        exact hword.isFinite
      · cases h

theorem isFinite_of_toFloat {n : Numeral} (h : n.toFloat = .ok x) : x.isFinite = true := by
  unfold toFloat at h
  dsimp only at h
  generalize hscale : scale _ _ = result at h
  cases result with
  | error fault => cases h
  | ok y =>
    have hy := isFinite_of_scale hscale
    obtain rfl := Except.ok.inj h
    split
    · exact Double.isFinite_neg hy
    · exact hy

end Finiteness

end Numeral

end LeastCost.Json
