import LeastCost.Decimal.Reader
import LeastCost.Decimal.Style
import LeastCost.Proofs.Double.Rounding
import Mathlib.Data.List.TakeWhile
import Mathlib.Tactic.IntervalCases

/-!
# What the shortest digits stand for

The digits of a finite number are proper: none is missing, and no zero leads. The decimal number
they spell lies in the interval of the reals that round to the binary one, so it stays as far
from overflow.
-/

namespace LeastCost.Decimal

section Values

variable {ds es : List Char}

theorem natOfDigits_eq (ds : List Char) : natOfDigits ds = Nat.ofDigitChars 10 ds 0 := rfl

@[simp] theorem natOfDigits_nil : natOfDigits [] = 0 := rfl

theorem ofDigitChars_eq (start : Nat) (ds : List Char) :
    Nat.ofDigitChars 10 ds start = start * 10 ^ ds.length + natOfDigits ds := by
  rw [Nat.ofDigitChars_eq_ofDigitChars_zero, Nat.mul_comm, natOfDigits_eq]

theorem natOfDigits_append (ds es : List Char) :
    natOfDigits (ds ++ es) = natOfDigits ds * 10 ^ es.length + natOfDigits es := by
  rw [natOfDigits_eq, Nat.ofDigitChars_append, ofDigitChars_eq]
  rfl

theorem natOfDigits_cons (start : Nat) (c : Char) (ds : List Char) :
    start * 10 ^ (c :: ds).length + natOfDigits (c :: ds) =
      (10 * start + (c.toNat - '0'.toNat)) * 10 ^ ds.length + natOfDigits ds := by
  rw [← ofDigitChars_eq, Nat.ofDigitChars_cons, ofDigitChars_eq]

@[simp] theorem natOfDigits_replicate_zero (k : Nat) : natOfDigits (List.replicate k '0') = 0 := by
  rw [natOfDigits_eq, Nat.ofDigitChars_replicate_zero, Nat.mul_zero]

@[simp] theorem natOfDigits_toDigits (n : Nat) : natOfDigits (Nat.toDigits 10 n) = n :=
  Nat.ofDigitChars_ten_toDigits

theorem natOfDigits_lt (h : ∀ c ∈ ds, c.isDigit) : natOfDigits ds < 10 ^ ds.length := by
  induction ds using List.reverseRecOn with
  | nil => simp
  | append_singleton ds c ih =>
    have hds := ih fun d hd => h d (by simp [hd])
    have hc : c.toNat - '0'.toNat < 10 := by
      have := h c (by simp)
      simp only [Char.isDigit, Bool.and_eq_true, decide_eq_true_eq] at this
      have h2 : c.toNat ≤ 57 := this.2
      have h0 : '0'.toNat = 48 := rfl
      omega
    rw [natOfDigits_append, List.length_append, List.length_singleton, Nat.pow_succ]
    change natOfDigits ds * 10 ^ 1 + (10 * 0 + (c.toNat - '0'.toNat)) < _
    omega

theorem isDigit_of_mem_toDigits {n : Nat} {c : Char} (h : c ∈ Nat.toDigits 10 n) : c.isDigit :=
  Nat.isDigit_of_mem_toDigits (by decide) (by decide) h

theorem head?_toDigits_ne_zero {n : Nat} (hn : 0 < n) :
    (Nat.toDigits 10 n).head? ≠ some '0' := by
  induction n using Nat.strongRecOn with
  | ind n ih =>
    rw [Nat.toDigits_eq_if (by decide)]
    split
    · next hlt => interval_cases n <;> decide
    · next hge =>
      rw [List.head?_append_of_ne_nil _ Nat.toDigits_ne_nil]
      exact ih (n / 10) (by omega) (by omega)

end Values

namespace Digits

def size (d : Digits) : Rat := natOfDigits d.digits * 10 ^ (d.point - d.digits.length)

/-- At least one digit, and no leading zero unless for the number zero. -/
structure Proper (d : Digits) : Prop where
  ne_nil : d.digits ≠ []
  isDigit : ∀ c ∈ d.digits, c.isDigit
  head : d.digits.head? = some '0' → d = zero

theorem proper_zero : zero.Proper where
  ne_nil := List.cons_ne_nil _ _
  isDigit := by simp [zero]
  head _ := rfl

@[simp] theorem size_zero : zero.size = 0 := by
  have : natOfDigits zero.digits = 0 := rfl
  simp [size, this]

variable {count : Nat} {power : Int}

theorem ofMultiple_digits (count : Nat) (power : Int) :
    ∃ zeros, Nat.toDigits 10 count =
      (ofMultiple count power).digits ++ List.replicate zeros '0' := by
  let all := Nat.toDigits 10 count
  have hzeros : all.reverse.takeWhile (· == '0') =
      List.replicate (all.reverse.takeWhile (· == '0')).length '0' :=
    List.eq_replicate_iff.mpr ⟨rfl, fun c hc => by simpa using List.mem_takeWhile_imp hc⟩
  refine ⟨(all.reverse.takeWhile (· == '0')).length, ?_⟩
  calc all
      = (all.reverse.takeWhile (· == '0') ++ all.reverse.dropWhile (· == '0')).reverse := by
        rw [List.takeWhile_append_dropWhile, List.reverse_reverse]
    _ = (all.reverse.dropWhile (· == '0')).reverse ++
          (List.replicate (all.reverse.takeWhile (· == '0')).length '0').reverse := by
        rw [List.reverse_append, ← hzeros]
    _ = (ofMultiple count power).digits ++
          List.replicate (all.reverse.takeWhile (· == '0')).length '0' := by
        rw [List.reverse_replicate]
        rfl

theorem size_ofMultiple (count : Nat) (power : Int) :
    (ofMultiple count power).size = count * 10 ^ power := by
  obtain ⟨zeros, hz⟩ := ofMultiple_digits count power
  have hcount : count = natOfDigits (ofMultiple count power).digits * 10 ^ zeros := by
    conv => lhs; rw [← natOfDigits_toDigits count, hz]
    simp [natOfDigits_append]
  have hpoint : (ofMultiple count power).point - (ofMultiple count power).digits.length =
      zeros + power := by
    have hlength := congrArg List.length hz
    rw [List.length_append, List.length_replicate] at hlength
    change power + (Nat.toDigits 10 count).length - _ = _
    omega
  rw [size, hpoint, zpow_add₀ (by norm_num), zpow_natCast, ← mul_assoc]
  congr 1
  conv => rhs; rw [hcount]
  push_cast
  rfl

theorem proper_ofMultiple (hcount : 0 < count) : (ofMultiple count power).Proper := by
  obtain ⟨zeros, hz⟩ := ofMultiple_digits count power
  have hne : (ofMultiple count power).digits ≠ [] := by
    intro h
    have hvalue := natOfDigits_toDigits count
    rw [hz, h, List.nil_append, natOfDigits_replicate_zero] at hvalue
    omega
  constructor
  case ne_nil => exact hne
  case isDigit =>
    intro c hc
    exact isDigit_of_mem_toDigits (n := count) (hz ▸ List.mem_append_left _ hc)
  case head =>
    intro hhead
    refine absurd ?_ (head?_toDigits_ne_zero hcount)
    rw [hz, List.head?_append_of_ne_nil _ hne, hhead]

end Digits

namespace Interval

variable {i : Interval} {tie : Tie} {power : Int} {count : Nat}

theorem pos_of_holds (hlow : 0 < i.low) (h : i.holds power count = true) : 0 < count := by
  have hvalue : 0 < count * Nat.pow 10 power.toNat * i.unit := by
    have hleft : 0 < i.low * Nat.pow 10 (-power).toNat :=
      Nat.mul_pos hlow (Nat.pow_pos (by decide))
    unfold holds at h
    split at h <;> simp only [Bool.and_eq_true, decide_eq_true_eq] at h <;> omega
  exact Nat.pos_of_mul_pos_right (Nat.pos_of_mul_pos_right hvalue)

theorem le_high_of_holds (hunit : 0 < i.unit) (h : i.holds power count = true) :
    (count : Rat) * 10 ^ power ≤ i.high / i.unit := by
  have hvalue : count * 10 ^ power.toNat * i.unit ≤ i.high * 10 ^ (-power).toNat := by
    unfold holds at h
    split at h <;> simp only [Bool.and_eq_true, decide_eq_true_eq] at h
    · exact h.2
    · exact h.2.le
  have hvalue' : (count : Rat) * 10 ^ power.toNat * i.unit ≤ i.high * 10 ^ (-power).toNat := by
    exact_mod_cast hvalue
  have hunit' : (0 : Rat) < i.unit := by exact_mod_cast hunit
  rw [Double.zpow_eq_div (by norm_num), ← mul_div_assoc, div_le_div_iff₀ (by positivity) hunit']
  exact hvalue'

theorem holds_of_nearest? (h : i.nearest? tie power = some count) :
    i.holds power count = true := by
  unfold nearest? at h
  dsimp only at h
  split at h
  · exact absurd h (by simp)
  · next hd _ => rwa [← Option.some.inj h]
  · next _ hu => rwa [← Option.some.inj h]
  · next hd hu =>
    split at h
    · rwa [← Option.some.inj h]
    · rwa [← Option.some.inj h]
    · split at h
      · rwa [← Option.some.inj h]
      · rw [← Option.some.inj h]
        rcases Nat.mod_two_eq_zero_or_one
          (i.middle * Nat.pow 10 (-power).toNat / (Nat.pow 10 power.toNat * i.unit)) with h0 | h1
        · rwa [h0]
        · rwa [h1]

/-- Shortest digits are those of a multiple in the interval, unless the search for one fails. -/
theorem shortest_eq (i : Interval) (tie : Tie) :
    i.shortest tie = Digits.zero ∨
      ∃ power count, i.holds power count = true ∧
        i.shortest tie = Digits.ofMultiple count power := by
  unfold shortest
  dsimp only
  cases h : (List.range 17).findSome? fun n : Nat =>
      (i.nearest? tie (i.leading - n)).map (Digits.ofMultiple · (i.leading - n)) with
  | none => exact Or.inl rfl
  | some d =>
    obtain ⟨n, -, hn⟩ := List.exists_of_findSome?_eq_some h
    obtain ⟨count, hcount, rfl⟩ := Option.map_eq_some_iff.mp hn
    exact Or.inr ⟨_, count, holds_of_nearest? hcount, rfl⟩

theorem proper_shortest (hlow : 0 < i.low) : (i.shortest tie).Proper := by
  rcases i.shortest_eq tie with h | ⟨power, count, hholds, h⟩
  · exact h ▸ Digits.proper_zero
  · exact h ▸ Digits.proper_ofMultiple (pos_of_holds hlow hholds)

theorem size_shortest_le (hunit : 0 < i.unit) :
    (i.shortest tie).size ≤ i.high / i.unit := by
  rcases i.shortest_eq tie with h | ⟨power, count, hholds, h⟩
  · rw [h, Digits.size_zero]
    positivity
  · rw [h, Digits.size_ofMultiple]
    exact le_high_of_holds hunit hholds

section Floats

variable {x y : Float}

/-- The greatest bit pattern of a magnitude whose interval is within reach. -/
def lastInReach : Nat := 0x7feffffffffffff9

theorem ofFloat_congr (h : x.toBits.toNat % signBit = y.toBits.toNat % signBit) :
    ofFloat x = ofFloat y := by
  unfold ofFloat
  rw [h]

theorem unit_ofFloat_pos (x : Float) : 0 < (ofFloat x).unit := Nat.pow_pos (by decide)

theorem low_ofFloat_pos (h : x.toBits.toNat % signBit ≠ 0) : 0 < (ofFloat x).low := by
  unfold ofFloat
  dsimp only
  refine Nat.mul_pos ?_ (Nat.pow_pos (by decide))
  generalize x.toBits.toNat % signBit = bits at h
  split_ifs <;> simp only [hiddenBit] at * <;> omega

theorem high_le_reach {significand : Nat} {exponent : Int}
    (h : 4 * significand + 2 ≤ 2 ^ 55 ∧ exponent ≤ 968 ∨
      4 * significand + 2 ≤ 2 * (2 ^ 54 - 13) ∧ exponent ≤ 969) :
    (((4 * significand + 2) * Nat.pow 2 exponent.toNat : Nat) : Rat) /
      (Nat.pow 2 (-exponent).toNat : Nat) ≤ Double.reach := by
  have hvalue : (((4 * significand + 2) * Nat.pow 2 exponent.toNat : Nat) : Rat) /
      (Nat.pow 2 (-exponent).toNat : Nat) = (4 * significand + 2 : Nat) * 2 ^ exponent := by
    rw [Double.zpow_eq_div two_ne_zero, ← mul_div_assoc, Nat.cast_mul]
    simp only [Nat.pow_eq, Nat.cast_pow, Nat.cast_ofNat]
  have htop : Double.reach = 2 * (2 ^ 54 - 13) * 2 ^ (969 : Int) := by
    rw [Double.reach, show (970 : Int) = 1 + 969 by norm_num, zpow_add₀ two_ne_zero]
    ring
  rw [hvalue, htop]
  rcases h with ⟨hs, he⟩ | ⟨hs, he⟩
  · have hs' : ((4 * significand + 2 : Nat) : Rat) ≤ 2 ^ 55 := by exact_mod_cast hs
    calc ((4 * significand + 2 : Nat) : Rat) * 2 ^ exponent ≤ 2 ^ 55 * 2 ^ (968 : Int) :=
          mul_le_mul hs' (zpow_le_zpow_right₀ one_le_two he) (zpow_pos two_pos _).le (by positivity)
      _ = 2 ^ 54 * 2 ^ (969 : Int) := by
          rw [show (969 : Int) = 1 + 968 by norm_num, zpow_add₀ two_ne_zero]
          ring
      _ ≤ 2 * (2 ^ 54 - 13) * 2 ^ (969 : Int) :=
          mul_le_mul_of_nonneg_right (by norm_num) (zpow_pos two_pos _).le
  · have hs' : ((4 * significand + 2 : Nat) : Rat) ≤ 2 * (2 ^ 54 - 13) := by
      norm_num at hs ⊢
      exact_mod_cast hs
    exact mul_le_mul hs' (zpow_le_zpow_right₀ one_le_two he) (zpow_pos two_pos _).le (by norm_num)

theorem high_ofFloat_le (h : x.toBits.toNat % signBit ≤ lastInReach) :
    ((ofFloat x).high : Rat) / (ofFloat x).unit ≤ Double.reach := by
  unfold ofFloat
  dsimp only
  generalize x.toBits.toNat % signBit = bits at h
  apply high_le_reach
  split_ifs <;> simp only [hiddenBit, lastInReach] at * <;> omega

end Floats

end Interval

section Floats

variable {x : Float}

theorem magnitude_le_of_isFinite (h : x.isFinite = true) :
    x.toBits.toNat % signBit ≤ 0x7fefffffffffffff := by
  obtain ⟨⟨bits, valid⟩⟩ := x
  change (Float.Model.UnpackedFloat.unpack .binary64 bits.toBitVec).isFinite = true at h
  change bits.toNat % signBit ≤ _
  have hlt := bits.toNat_lt
  by_contra hlarge
  have hexponent : @Float.Model.UnpackedFloat.unpackExponent .binary64 bits.toBitVec = -1#_ := by
    apply BitVec.eq_of_toNat_eq
    simp only [Float.Model.UnpackedFloat.unpackExponent, BitVec.toNat_cast,
      BitVec.extractLsb_toNat, UInt64.toNat_toBitVec, Nat.shiftRight_eq_div_pow]
    simp only [signBit] at hlarge
    norm_num
    omega
  unfold Float.Model.UnpackedFloat.unpack at h
  rw [if_pos hexponent] at h
  split at h <;> exact absurd h Bool.false_ne_true

theorem eq_zero_of_magnitude (h : x.toBits.toNat % signBit = 0) : (x == 0) = true := by
  have hlt := x.toBits.toNat_lt
  have hbits : x.toBits.toNat = 0 ∨ x.toBits.toNat = 0x8000000000000000 := by
    simp only [signBit] at h
    omega
  rcases hbits with h0 | h0
  · obtain rfl : x = Float.ofBits 0 :=
      Float.toBits_inj.mp (UInt64.toNat_inj.mp (h0.trans (by decide +kernel)))
    decide +kernel
  · obtain rfl : x = Float.ofBits 0x8000000000000000 :=
      Float.toBits_inj.mp (UInt64.toNat_inj.mp (h0.trans (by decide +kernel)))
    decide +kernel

theorem proper_shortest (tie : Tie) (x : Float) : (shortest tie x).Proper := by
  unfold shortest
  split
  · exact Digits.proper_zero
  · next hzero =>
    apply Interval.proper_shortest
    exact Interval.low_ofFloat_pos fun h => hzero (eq_zero_of_magnitude h)

theorem size_shortest_le (tie : Tie) (h : x.toBits.toNat % signBit ≤ Interval.lastInReach) :
    (shortest tie x).size ≤ Double.reach := by
  unfold shortest
  split
  · rw [Digits.size_zero]
    norm_num [Double.reach]
  · refine (Interval.size_shortest_le ?_).trans (Interval.high_ofFloat_le h)
    exact Interval.unit_ofFloat_pos x

end Floats

end LeastCost.Decimal
