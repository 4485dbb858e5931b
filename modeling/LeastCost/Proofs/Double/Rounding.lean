import Mathlib

/-!
# Products that do not overflow

The magnitude of a rounded number exceeds the exact one by less than one part in `2 ^ 52`. So
the product of a word and a power of ten is finite as long as it keeps some distance from
`2 ^ 1024`.
-/

namespace LeastCost.Double

open Float.Model Float.Model.UnpackedFloat

/-- The factor by which rounding may enlarge a magnitude. -/
def enlargement : Rat := 1 + 1 / 2 ^ 52

def overflow : Rat := 2 ^ (1024 : Int)

theorem zpow_eq_div {b : Rat} (hb : b ≠ 0) (e : Int) : b ^ e = b ^ e.toNat / b ^ (-e).toNat := by
  conv_lhs => rw [← Int.toNat_sub_toNat_neg e]
  rw [zpow_sub₀ hb, zpow_natCast, zpow_natCast]

theorem overflow_eq (a b : Int) (h : a + b = 1024) : overflow = 2 ^ a * 2 ^ b := by
  rw [overflow, ← h, zpow_add₀ two_ne_zero]

/-- A number from one to `v` with all its significant bits. -/
def FromOneTo (v : Rat) (u : UnpackedFloat) : Prop :=
  ∃ (m : Nat) (e : Int) (hm : 0 < m), u = .finite .positive m e hm ∧ m.log2 = 52 ∧ -52 ≤ e ∧
    (m : Rat) * 2 ^ e ≤ v

section Shifting

theorem mantissa_shiftRight (em : ExtendedMantissa) (k : Nat) :
    (em >>> k).mantissa = em.mantissa / 2 ^ k := by
  induction k with
  | zero =>
    change em.mantissa = _
    rw [Nat.pow_zero, Nat.div_one]
  | succ k ih =>
    change (em >>> k).mantissa / 2 = _
    rw [ih, Nat.div_div_eq_div_mul, Nat.pow_succ]

theorem mantissa_le_roundedMantissa (em : ExtendedMantissa) :
    em.mantissa ≤ em.roundedMantissa := by
  obtain ⟨m, round, sticky⟩ := em
  cases round <;> cases sticky <;>
    simp [ExtendedMantissa.roundedMantissa, ExtendedMantissa.accuracy, Accuracy.roundToNearestEven]

theorem roundedMantissa_le (em : ExtendedMantissa) : em.roundedMantissa ≤ em.mantissa + 1 := by
  obtain ⟨m, round, sticky⟩ := em
  cases round <;> cases sticky <;>
    simp [ExtendedMantissa.roundedMantissa, ExtendedMantissa.accuracy, Accuracy.roundToNearestEven]
  omega

variable {m k : Nat} {e : Int}

/-- The extended significand of an exact number after the last `k` bits are dropped. -/
def dropBits (m k : Nat) : ExtendedMantissa :=
  ExtendedMantissa.ofMantissaAndAccuracy m .exact >>> k

theorem targetExponent_eq (hlog : m.log2 = 52 + k) (hlow : -1074 ≤ e + k) :
    Format.binary64.targetExponent (totalExponent m e) = e + k := by
  simp only [Format.targetExponent, totalExponent, Format.mantissaBits, Format.minExponent, hlog]
  norm_num
  omega

theorem shiftToTargetExponent_eq (hlog : m.log2 = 52 + k) (hlow : -1074 ≤ e + k) :
    shiftToTargetExponent .binary64 m e .exact = (dropBits m k, e + k) := by
  have hk : (e + (k : Int) - e).toNat = k := by omega
  simp only [shiftToTargetExponent, shiftToExponent, targetExponent_eq hlog hlow, hk, dropBits]

/-- Rounding drops bits; if that carries into a new leading bit, one more bit is dropped. -/
theorem roundWithAccuracy_eq (s : Sign) (hlog : m.log2 = 52 + k) (hlow : -1074 ≤ e + k) :
    ∃ (m' : Nat) (e' : Int) (hm : 0 < m'), roundWithAccuracy .binary64 s m e .exact =
      .finite s m' e' hm ∧ m'.log2 = 52 ∧ e + k ≤ e' ∧
        (m' : Rat) * 2 ^ e' = ((dropBits m k).roundedMantissa : Rat) * 2 ^ (e + k) := by
  have hm : m ≠ 0 := by
    rintro rfl
    simp at hlog
    omega
  have hfloor : (dropBits m k).mantissa = m / 2 ^ k := mantissa_shiftRight _ k
  have hlower : 2 ^ 52 ≤ m / 2 ^ k := by
    rw [Nat.le_div_iff_mul_le (by positivity), ← Nat.pow_add, ← hlog]
    exact Nat.log2_self_le hm
  have hupper : m / 2 ^ k < 2 ^ 53 := by
    rw [Nat.div_lt_iff_lt_mul (by positivity), ← Nat.pow_add]
    have h := Nat.lt_log2_self (n := m)
    rwa [hlog, show 52 + k + 1 = 53 + k by omega] at h
  have hle := mantissa_le_roundedMantissa (dropBits m k)
  have hge := roundedMantissa_le (dropBits m k)
  rw [hfloor] at hle hge
  have hfirst := shiftToTargetExponent_eq hlog hlow
  generalize hr : (dropBits m k).roundedMantissa = r at hle hge ⊢
  unfold roundWithAccuracy
  rw [hfirst]
  dsimp only
  rw [hr]
  rcases Nat.lt_or_ge r (2 ^ 53) with hlt | hcarry
  · have hr52 : r.log2 = 52 := (Nat.log2_eq_iff (by omega)).mpr ⟨by omega, hlt⟩
    have hsecond := shiftToTargetExponent_eq (m := r) (k := 0) (e := e + k) (by omega) (by omega)
    refine ⟨r, e + k, by omega, ?_, hr52, le_rfl, rfl⟩
    rw [hsecond]
    have h0 : (dropBits r 0).mantissa = r := by
      rw [dropBits, mantissa_shiftRight]
      simp [ExtendedMantissa.ofMantissaAndAccuracy]
    simp only [h0, Nat.cast_zero, add_zero]
    rw [dif_neg (by omega)]
  · -- Rounding up reached the next power of two, whose last bit is zero and can go.
    obtain rfl : r = 2 ^ 53 := by omega
    have hsecond := shiftToTargetExponent_eq (m := 2 ^ 53) (k := 1) (e := e + k)
      (Nat.log2_two_pow) (by omega)
    refine ⟨2 ^ 52, e + k + 1, by positivity, ?_, Nat.log2_two_pow, by omega, ?_⟩
    · rw [hsecond]
      have h1 : (dropBits (2 ^ 53) 1).mantissa = 2 ^ 52 := by
        rw [dropBits, mantissa_shiftRight]
        rfl
      simp only [h1, Nat.cast_one]
      rw [dif_neg (by positivity)]
    · rw [zpow_add₀ two_ne_zero (e + k) 1]
      push_cast
      ring

/-- Rounding an exact number of at least one enlarges it only a little. -/
theorem roundWithAccuracy_fromOneTo {v : Rat} (hlog : 52 ≤ m.log2) (hlow : 0 ≤ m.log2 + e)
    (hle : (m : Rat) * 2 ^ e ≤ v) :
    FromOneTo (v * enlargement) (roundWithAccuracy .binary64 .positive m e .exact) := by
  obtain ⟨k, hk⟩ := Nat.exists_eq_add_of_le hlog
  obtain ⟨m', e', hm', h, hlog', he', hvalue⟩ :=
    roundWithAccuracy_eq (e := e) .positive hk (by omega)
  refine ⟨m', e', hm', h, hlog', by omega, ?_⟩
  rw [hvalue]
  have hm : m ≠ 0 := by
    rintro rfl
    simp at hlog
  -- The dropped bits weigh less than one unit in the last of the 53 bits kept.
  have hround : (dropBits m k).roundedMantissa * 2 ^ k ≤ m + 2 ^ k := by
    have hfloor : (dropBits m k).mantissa = m / 2 ^ k := mantissa_shiftRight _ k
    calc (dropBits m k).roundedMantissa * 2 ^ k
        ≤ (m / 2 ^ k + 1) * 2 ^ k :=
          Nat.mul_le_mul_right _ (hfloor ▸ roundedMantissa_le (dropBits m k))
      _ = m / 2 ^ k * 2 ^ k + 2 ^ k := by ring
      _ ≤ m + 2 ^ k := Nat.add_le_add_right (Nat.div_mul_le_self m _) _
  have hunit : 2 ^ 52 * 2 ^ k ≤ m := by
    rw [← Nat.pow_add, ← hk]
    exact Nat.log2_self_le hm
  have hround' : ((dropBits m k).roundedMantissa : Rat) * 2 ^ k ≤ m + 2 ^ k := by
    exact_mod_cast hround
  have hunit' : (2 : Rat) ^ 52 * 2 ^ k ≤ m := by exact_mod_cast hunit
  have hpos : (0 : Rat) < 2 ^ e := by positivity
  calc ((dropBits m k).roundedMantissa : Rat) * 2 ^ (e + k)
      = (dropBits m k).roundedMantissa * 2 ^ k * 2 ^ e := by
        rw [zpow_add₀ two_ne_zero, zpow_natCast]
        ring
    _ ≤ m * enlargement * 2 ^ e := by
        refine mul_le_mul_of_nonneg_right ?_ hpos.le
        have : (2 : Rat) ^ k ≤ m / 2 ^ 52 := by
          rw [le_div_iff₀ (by positivity)]
          linarith
        rw [enlargement]
        linarith
    _ = m * 2 ^ e * enlargement := by ring
    _ ≤ v * enlargement := mul_le_mul_of_nonneg_right hle (by norm_num [enlargement])

end Shifting

section Packing

variable {m : Nat} {e : Int} {v : Rat} {u : UnpackedFloat}

theorem exponent_le (hlog : m.log2 = 52) (hlt : (m : Rat) * 2 ^ e < overflow) : e ≤ 971 := by
  have hm : (2 : Rat) ^ (52 : Int) ≤ m := by
    have h := Nat.log2_self_le (n := m) (by rintro rfl; simp at hlog)
    rw [hlog] at h
    exact_mod_cast h
  by_contra hgt
  have hpow : (2 : Rat) ^ (972 : Int) ≤ 2 ^ e := zpow_le_zpow_right₀ (by norm_num) (by omega)
  have : overflow ≤ (m : Rat) * 2 ^ e :=
    calc overflow = 2 ^ (52 : Int) * 2 ^ (972 : Int) := overflow_eq 52 972 (by norm_num)
      _ ≤ (m : Rat) * 2 ^ e :=
        mul_le_mul hm hpow (zpow_pos two_pos _).le (Nat.cast_nonneg m)
  exact absurd hlt (not_lt.mpr this)

theorem FromOneTo.unpack_pack (h : FromOneTo v u) (hv : v < overflow) :
    (Float.Model.pack u).unpack = u := by
  obtain ⟨m, e, hm, rfl, hlog, hlow, hle⟩ := h
  have he := exponent_le hlog (hle.trans_lt hv)
  obtain ⟨b, hb⟩ : ∃ b : Nat, e + 1075 = b := ⟨(e + 1075).toNat, by omega⟩
  have hexp : (BitVec.ofNat 11 b).toNat = b := by
    rw [BitVec.toNat_ofNat, Nat.mod_eq_of_lt (by omega)]
  have hne {field : BitVec 11} (hfield : b ≠ field.toNat) : BitVec.ofNat 11 b ≠ field :=
    fun h => hfield (hexp ▸ congrArg BitVec.toNat h)
  have hzero : BitVec.ofNat 11 b ≠ 0#11 := by
    apply hne
    rw [BitVec.toNat_zero]
    omega
  have hones : BitVec.ofNat 11 b ≠ -1#11 := by
    apply hne
    simp only [BitVec.reduceNeg, BitVec.toNat_ofNat]
    omega
  have hmantissa : (1#1 ++ BitVec.ofNat 52 m).toNat = m := by
    have hbounds := (Nat.log2_eq_iff hm.ne').mp hlog
    rw [BitVec.toNat_append, ← Nat.shiftLeft_add_eq_or_of_lt (BitVec.isLt _), BitVec.toNat_ofNat,
      BitVec.toNat_ofNat]
    simp only [Nat.shiftLeft_eq]
    omega
  have hpack : UnpackedFloat.pack .binary64 (.finite .positive m e hm) =
      packComponents .binary64 .positive (BitVec.ofNat 11 b) (BitVec.ofNat 52 m) := by
    have hbiased : (e + Format.binary64.exponentBias +
        Format.binary64.mantissaBitsWithoutImplicit).toNat = b := by
      simp only [Format.exponentBias]
      norm_num
      omega
    simp only [UnpackedFloat.pack, hbiased, hlog, Format.mantissaBits]
    rw [if_neg (by norm_num; omega), if_pos (by norm_num)]
  change UnpackedFloat.unpack .binary64 (UnpackedFloat.pack .binary64 _) = _
  rw [hpack]
  simp only [UnpackedFloat.unpack, unpackMantissa_packComponents, unpackExponent_packComponents,
    unpackSign_packComponents, hzero, hones, if_false, hexp, hmantissa]
  congr 1
  simp only [Format.exponentBias]
  norm_num
  omega

end Packing

section Products

variable {x y : Float} {v w : Rat}

/-- A number from one to `v`. -/
def FromOne (v : Rat) (x : Float) : Prop := FromOneTo v x.toModel.unpack

theorem FromOne.mono (h : FromOne v x) (hle : v ≤ w) : FromOne w x := by
  obtain ⟨m, e, hm, hu, hlog, hlow, hv⟩ := h
  exact ⟨m, e, hm, hu, hlog, hlow, hv.trans hle⟩

theorem FromOne.isInf_eq_false (h : FromOne v x) : x.isInf = false := by
  obtain ⟨m, e, hm, hu, -⟩ := h
  change x.toModel.unpack.isInf = false
  rw [hu]
  rfl

theorem FromOne.mul (hx : FromOne v x) (hy : FromOne w y) (hlt : v * w * enlargement < overflow) :
    FromOne (v * w * enlargement) (x * y) := by
  obtain ⟨m, e, hm, hx, hlog, hlow, hv⟩ := hx
  obtain ⟨n, d, hn, hy, hlog', hlow', hw⟩ := hy
  have hbounds : 2 ^ 104 ≤ m * n := by
    have h1 := Nat.log2_self_le hm.ne'
    have h2 := Nat.log2_self_le hn.ne'
    rw [hlog] at h1
    rw [hlog'] at h2
    calc 2 ^ 104 = 2 ^ 52 * 2 ^ 52 := by norm_num
      _ ≤ m * n := Nat.mul_le_mul h1 h2
  have hlog104 : 104 ≤ (m * n).log2 := (Nat.le_log2 (by positivity)).mpr hbounds
  have hround : FromOneTo (v * w * enlargement)
      (UnpackedFloat.mul .binary64 (.finite .positive m e hm) (.finite .positive n d hn)) := by
    refine roundWithAccuracy_fromOneTo (by omega) (by omega) ?_
    calc ((m * n : Nat) : Rat) * 2 ^ (e + d) = (m * 2 ^ e) * (n * 2 ^ d) := by
          rw [zpow_add₀ two_ne_zero]
          push_cast
          ring
      _ ≤ v * w := mul_le_mul hv hw (by positivity) ((by positivity : (0 : Rat) ≤ _).trans hv)
  have hxy : (x * y).toModel =
      .pack (UnpackedFloat.mul .binary64 x.toModel.unpack y.toModel.unpack) := rfl
  rw [FromOne, hxy, hx, hy, hround.unpack_pack hlt]
  exact hround

theorem log2_shiftLeft {n : Nat} (hn : n ≠ 0) (k : Nat) : (n <<< k).log2 = n.log2 + k := by
  have hpos : 0 < 2 ^ k := by positivity
  rw [Nat.shiftLeft_eq, Nat.log2_eq_iff (Nat.mul_ne_zero hn hpos.ne')]
  obtain ⟨hle, hlt⟩ := (Nat.log2_eq_iff hn).mp rfl
  constructor
  · rw [Nat.pow_add]
    exact Nat.mul_le_mul_right _ hle
  · rw [Nat.add_right_comm, Nat.pow_add]
    exact Nat.mul_lt_mul_of_pos_right hlt hpos

theorem fromOne_toFloat {n : UInt64} (hn : n ≠ 0) :
    FromOne (n.toNat * enlargement) n.toFloat := by
  have hpos : 0 < n.toNat := Nat.pos_of_ne_zero fun h => hn (UInt64.toNat_inj.mp h)
  have hlt : n.toNat < 2 ^ 64 := n.toNat_lt
  have hlog : n.toNat.log2 < 64 := (Nat.log2_lt hpos.ne').mpr hlt
  let shift := 52 - n.toNat.log2
  have hdecrease : UnpackedFloat.ofUInt64 .binary64 n = roundWithAccuracy .binary64 .positive
      (n.toNat <<< shift) (-shift) .exact := by
    have htarget : (-Format.binary64.targetExponent (totalExponent n.toNat 0)).toNat = shift := by
      simp only [Format.targetExponent, totalExponent, Format.mantissaBits, Format.minExponent,
        shift]
      norm_num
      omega
    have hcompare : compare (n.toNat : Int) 0 = .gt := by
      rw [Int.compare_eq_gt]
      omega
    simp only [UnpackedFloat.ofUInt64, UnpackedFloat.ofNat, UnpackedFloat.ofInt,
      UnpackedFloat.normalize, hcompare, UnpackedFloat.round, UnpackedFloat.decreaseExponent,
      Int.toNat_natCast, zero_sub, htarget]
  have hshift : (n.toNat <<< shift).log2 = n.toNat.log2 + shift := log2_shiftLeft hpos.ne' shift
  have hround : FromOneTo (n.toNat * enlargement) (UnpackedFloat.ofUInt64 .binary64 n) := by
    rw [hdecrease]
    refine roundWithAccuracy_fromOneTo (by omega) (by omega) (le_of_eq ?_)
    rw [Nat.shiftLeft_eq, zpow_neg, zpow_natCast]
    push_cast
    exact mul_inv_cancel_right₀ (by positivity) _
  have hbound : (n.toNat : Rat) * enlargement < overflow := by
    have hn' : (n.toNat : Rat) ≤ 2 ^ 64 := by exact_mod_cast hlt.le
    calc (n.toNat : Rat) * enlargement ≤ 2 ^ 64 * 2 :=
          mul_le_mul hn' (by norm_num [enlargement]) (by norm_num [enlargement]) (by positivity)
      _ = 2 ^ (65 : Int) := by norm_num
      _ < overflow := zpow_lt_zpow_right₀ (by norm_num) (by norm_num)
  change FromOneTo _ (Float.Model.pack _).unpack
  rw [hround.unpack_pack hbound]
  exact hround

def isWhole (n : Nat) : UnpackedFloat → Bool
  | .finite .positive m e _ =>
    m.log2 == 52 && -52 ≤ e && m * 2 ^ e.toNat == n * 2 ^ (-e).toNat
  | _ => false

theorem FromOneTo.of_isWhole {n : Nat} {u : UnpackedFloat} (h : isWhole n u = true) :
    FromOneTo n u := by
  unfold isWhole at h
  split at h
  · next m e hm =>
    simp only [Bool.and_eq_true, beq_iff_eq, decide_eq_true_eq] at h
    obtain ⟨⟨hlog, hlow⟩, hvalue⟩ := h
    refine ⟨m, e, hm, rfl, hlog, hlow, le_of_eq ?_⟩
    have hvalue' : (m : Rat) * 2 ^ e.toNat = n * 2 ^ (-e).toNat := by exact_mod_cast hvalue
    calc (m : Rat) * 2 ^ e = m * 2 ^ e.toNat / 2 ^ (-e).toNat := by
          rw [zpow_eq_div two_ne_zero, mul_div_assoc]
      _ = n := by rw [hvalue', mul_div_cancel_right₀ _ (by positivity)]
  · exact absurd h Bool.false_ne_true

theorem isWhole_power :
    ∀ power < 23, isWhole (10 ^ power) (Float.ofScientific 1 false power).toModel.unpack := by
  decide +kernel

theorem fromOne_power {power : Nat} (hpower : power ≤ 308) :
    FromOne (10 ^ power * enlargement) (Float.ofScientific 1 false power) := by
  have hbound : (10 : Rat) ^ power * enlargement < overflow := by
    have h10 : (10 : Rat) ^ power ≤ 10 ^ 308 := pow_le_pow_right₀ (by norm_num) hpower
    have hlargest : (10 : Rat) ^ 308 * (3 / 2) < overflow := by
      have h : 10 ^ 308 * 3 < 2 ^ 1024 * 2 := by decide +kernel
      rw [overflow, zpow_ofNat, ← mul_div_assoc, div_lt_iff₀ two_pos]
      exact_mod_cast h
    exact (mul_le_mul h10 (by norm_num [enlargement]) (by norm_num [enlargement])
      (by positivity)).trans_lt hlargest
  -- From `10 ^ 23` on, a power of ten has more bits than a significand and is rounded.
  rcases Nat.lt_or_ge power 23 with hsmall | hlarge
  · have h : FromOne ((10 ^ power : Nat) : Rat) (Float.ofScientific 1 false power) :=
      .of_isWhole (isWhole_power power hsmall)
    refine h.mono ?_
    push_cast
    exact le_mul_of_one_le_right (by positivity) (by norm_num [enlargement])
  · have hround : FromOneTo (10 ^ power * enlargement)
        (UnpackedFloat.ofScientific .binary64 1 power) := by
      have hmul : UnpackedFloat.ofScientific .binary64 1 power =
          roundWithAccuracy .binary64 .positive (2 ^ 53 * 10 ^ power) (-53) .exact := by
        unfold UnpackedFloat.ofScientific
        rw [dif_neg one_ne_zero, if_neg (by norm_num; omega), if_neg (by norm_num; omega),
          if_pos (by omega)]
        rfl
      have hlog : 53 ≤ (2 ^ 53 * 10 ^ power).log2 :=
        (Nat.le_log2 (by positivity)).mpr (Nat.le_mul_of_pos_right _ (by positivity))
      rw [hmul]
      refine roundWithAccuracy_fromOneTo (by omega) (by omega) (le_of_eq ?_)
      push_cast
      norm_num
      ring
    have hmodel : (Float.ofScientific 1 false power).toModel =
        .pack (UnpackedFloat.ofScientific .binary64 1 power) := by
      unfold Float.ofScientific
      rw [dif_neg (by omega)]
      rfl
    rw [FromOne, hmodel, hround.unpack_pack hbound]
    exact hround

/-- Exact products up to this size do not overflow, however their factors are rounded. -/
def reach : Rat := (2 ^ 54 - 13) * 2 ^ (970 : Int)

theorem reach_mul_lt_overflow : reach * enlargement ^ 3 < overflow := by
  rw [reach, overflow_eq 54 970 (by norm_num), mul_right_comm]
  exact mul_lt_mul_of_pos_right (by norm_num [enlargement]) (zpow_pos two_pos _)

theorem reach_lt_power : reach < 10 ^ 309 := by
  have h : 2 ^ 1024 < 10 ^ 309 := by decide +kernel
  calc reach < 2 ^ (54 : Int) * 2 ^ (970 : Int) :=
        mul_lt_mul_of_pos_right (by norm_num) (zpow_pos two_pos _)
    _ = 2 ^ 1024 := by rw [← overflow_eq 54 970 (by norm_num), overflow, zpow_ofNat]
    _ < 10 ^ 309 := by exact_mod_cast h

theorem toNat_le_reach (n : UInt64) : (n.toNat : Rat) ≤ reach := by
  have hn : (n.toNat : Rat) ≤ 2 ^ (64 : Int) := by exact_mod_cast n.toNat_lt.le
  calc (n.toNat : Rat) ≤ 2 ^ (970 : Int) :=
        hn.trans (zpow_le_zpow_right₀ one_le_two (by norm_num))
    _ ≤ reach := le_mul_of_one_le_left (zpow_pos two_pos _).le (by norm_num)

theorem isInf_zero_mul (h : FromOne v x) : ((0 : UInt64).toFloat * x).isInf = false := by
  obtain ⟨m, e, hm, hu, -⟩ := h
  have hzero : (0 : UInt64).toFloat.toModel.unpack = .zero .positive := by rfl
  change (Float.Model.pack (UnpackedFloat.mul .binary64 _ _)).unpack.isInf = false
  rw [hzero, hu]
  change (Float.Model.pack (.zero .positive)).unpack.isInf = false
  decide

/-- A word times a power of ten is finite as long as the exact product keeps within reach. -/
theorem isInf_toFloat_mul_power {n : UInt64} {power : Nat} (hpower : power ≤ 308)
    (h : (n.toNat : Rat) * 10 ^ power ≤ reach) :
    (n.toFloat * Float.ofScientific 1 false power).isInf = false := by
  by_cases hn : n = 0
  · rw [hn]
    exact isInf_zero_mul (fromOne_power hpower)
  · refine ((fromOne_toFloat hn).mul (fromOne_power hpower) ?_).isInf_eq_false
    calc (n.toNat : Rat) * enlargement * (10 ^ power * enlargement) * enlargement
        = n.toNat * 10 ^ power * enlargement ^ 3 := by ring
      _ ≤ reach * enlargement ^ 3 :=
          mul_le_mul_of_nonneg_right h (by norm_num [enlargement])
      _ < overflow := reach_mul_lt_overflow

end Products

end LeastCost.Double
