import LeastCost.Proofs.Double.Rounding

/-!
# Quotients that do not overflow

A number with a bounded exponent is finite. Division by a number of at least one raises the bound
by no more than one, and division by a greater one does not raise it, however often it is done.
-/

namespace LeastCost.Double

open Float.Model Float.Model.UnpackedFloat

/-- Zero, or a number with at most 53 significant bits and an exponent up to `bound`. -/
def Below (bound : Int) : UnpackedFloat → Prop
  | .zero _ => True
  | .finite _ m e _ => m < 2 ^ 53 ∧ e ≤ bound
  | .infinity _ | .notANumber => False

section Rounding

variable {m : Nat} {e bound : Int}

theorem targetExponent_binary64 (t : Int) :
    Format.binary64.targetExponent t = max (t - 53) (-1074) := rfl

theorem mantissa_ofMantissaAndAccuracy (m : Nat) (accuracy : Accuracy) :
    (ExtendedMantissa.ofMantissaAndAccuracy m accuracy).mantissa = m := by
  cases accuracy with
  | exact => rfl
  | inexact order => cases order <;> rfl

/-- Shifting to the target exponent leaves at most 53 bits. -/
theorem shiftToTargetExponent_lt (accuracy : Accuracy) :
    (shiftToTargetExponent .binary64 m e accuracy).1.mantissa < 2 ^ 53 ∧
      (shiftToTargetExponent .binary64 m e accuracy).2 = max e (max (m.log2 + e - 52) (-1074)) := by
  simp only [shiftToTargetExponent, shiftToExponent, targetExponent_binary64, totalExponent,
    mantissa_shiftRight, mantissa_ofMantissaAndAccuracy]
  constructor
  · rw [Nat.div_lt_iff_lt_mul (by positivity), ← Nat.pow_add]
    exact Nat.lt_log2_self.trans_le (Nat.pow_le_pow_right two_pos (by omega))
  · omega

theorem roundWithAccuracy_below (s : Sign) (accuracy : Accuracy) (hlow : -1074 ≤ bound)
    (he : e ≤ bound) (hm : m.log2 + e - 52 ≤ bound) :
    Below (bound + 1) (roundWithAccuracy .binary64 s m e accuracy) := by
  obtain ⟨hfirst, hfirst'⟩ := shiftToTargetExponent_lt (m := m) (e := e) accuracy
  generalize hem : shiftToTargetExponent .binary64 m e accuracy = first at hfirst hfirst'
  obtain ⟨em, e'⟩ := first
  dsimp only at hfirst hfirst'
  have hround : em.roundedMantissa.log2 ≤ 53 := by
    have hle := roundedMantissa_le em
    rw [← Nat.lt_succ_iff]
    rcases Nat.eq_zero_or_pos em.roundedMantissa with hzero | hpos
    · rw [hzero, Nat.log2_zero]
      decide
    · exact (Nat.log2_lt hpos.ne').mpr (by omega)
  obtain ⟨hsecond, hsecond'⟩ :=
    shiftToTargetExponent_lt (m := em.roundedMantissa) (e := e') .exact
  unfold roundWithAccuracy
  simp only [hem]
  split
  · trivial
  · refine ⟨hsecond, ?_⟩
    omega

theorem isFinite_roundWithAccuracy (s : Sign) (m : Nat) (e : Int) (accuracy : Accuracy) :
    (roundWithAccuracy .binary64 s m e accuracy).isFinite = true := by
  unfold roundWithAccuracy
  dsimp only
  split <;> rfl

theorem Below.neg {u : UnpackedFloat} (h : Below bound u) : Below bound u.neg := by
  cases u <;> exact h

theorem Below.isFinite {u : UnpackedFloat} (h : Below bound u) : u.isFinite = true := by
  cases u with
  | finite s m e hm => rfl
  | zero s => rfl
  | infinity s => exact h.elim
  | notANumber => exact h.elim

theorem Below.div {u : UnpackedFloat} {n : Nat} {d bound' : Int} (h : Below bound u) (hn : 0 < n)
    (hlog : n.log2 = 52) (hd : bound - d - 52 ≤ bound') (hlow : -1074 ≤ bound') :
    Below (bound' + 1) (UnpackedFloat.div .binary64 u (.finite .positive n d hn)) := by
  cases u with
  | infinity s => exact h.elim
  | notANumber => exact h.elim
  | zero s => trivial
  | finite s m e hm =>
    obtain ⟨hm53, he⟩ := h
    have hmlog : m.log2 ≤ 52 := Nat.lt_succ_iff.mp ((Nat.log2_lt hm.ne').mpr hm53)
    have hcore : ∀ shift : Nat,
        ((m <<< shift / n).log2 : Int) ≤ max 0 ((m.log2 : Int) + shift - 52) := by
      intro shift
      rcases Nat.eq_zero_or_pos (m <<< shift / n) with hzero | hpos
      · rw [hzero, Nat.log2_zero]
        omega
      · have hle : (m <<< shift / n) * 2 ^ 52 ≤ m <<< shift :=
          (Nat.mul_le_mul_left _ (hlog ▸ Nat.log2_self_le hn.ne')).trans (Nat.div_mul_le_self _ _)
        have hlt : m <<< shift < 2 ^ (m.log2 + 1 + shift) := by
          rw [Nat.shiftLeft_eq, Nat.pow_add]
          exact Nat.mul_lt_mul_of_pos_right Nat.lt_log2_self (by positivity)
        have hself := Nat.log2_self_le hpos.ne'
        have hpow : 2 ^ ((m <<< shift / n).log2 + 52) < 2 ^ (m.log2 + 1 + shift) := by
          rw [Nat.pow_add]
          exact ((Nat.mul_le_mul_right _ hself).trans hle).trans_lt hlt
        have := (Nat.pow_lt_pow_iff_right (by norm_num)).mp hpow
        omega
    simp only [UnpackedFloat.div, divCore, targetExponent_binary64, totalExponent, hlog]
    refine roundWithAccuracy_below _ _ hlow ?_ ?_
    · omega
    · have := hcore
        (e - d - min (e - d) (max (m.log2 + 1 + e - ((52 : Nat) + 1 + d) - 53) (-1074))).toNat
      omega

end Rounding

section Packing

variable {u : UnpackedFloat} {bits : BitVec Format.binary64.numBits} {bound : Int}

theorem below_unpack (hbits : (unpackExponent bits).toNat ≤ bound + 1075)
    (hlow : -1074 ≤ bound) (hhigh : bound ≤ 971) :
    Below bound (UnpackedFloat.unpack .binary64 bits) := by
  have hexp : unpackExponent bits ≠ -1#_ := by
    intro h
    rw [h] at hbits
    norm_num at hbits
    omega
  have hbias : (Format.binary64.exponentBias : Int) = 1023 := rfl
  simp only [UnpackedFloat.unpack, hexp, if_false, hbias]
  split
  · next hzero =>
    split
    · trivial
    · refine ⟨(unpackMantissa bits).isLt.trans (by norm_num), ?_⟩
      rw [hzero]
      norm_num
      omega
  · refine ⟨(1#1 ++ unpackMantissa bits).isLt, ?_⟩
    norm_num
    omega

theorem pack_finite (s : Sign) {m : Nat} {e : Int} (hm : 0 < m) (he : e ≤ 971) :
    ∃ field mantissa, UnpackedFloat.pack .binary64 (.finite s m e hm) =
      packComponents .binary64 s field mantissa ∧ (field.toNat : Int) ≤ max (e + 1075) 0 := by
  have hbias : (Format.binary64.exponentBias : Int) = 1023 := rfl
  have hlt : (e + 1023 + Format.binary64.mantissaBitsWithoutImplicit).toNat + 1 < 2 ^ 11 := by
    norm_num
    omega
  simp only [UnpackedFloat.pack, hbias, if_neg (not_le.mpr hlt)]
  split
  · refine ⟨_, _, rfl, ?_⟩
    rw [BitVec.toNat_ofNat, Nat.mod_eq_of_lt (by omega)]
    norm_num
    omega
  · refine ⟨_, _, rfl, ?_⟩
    norm_num

theorem Below.unpack_pack (h : Below bound u) (hlow : -1074 ≤ bound) (hhigh : bound ≤ 971) :
    Below bound (Float.Model.pack u).unpack := by
  change Below bound (UnpackedFloat.unpack .binary64 (UnpackedFloat.pack .binary64 u))
  cases u with
  | infinity s => exact h.elim
  | notANumber => exact h.elim
  | zero s => cases s <;> trivial
  | finite s m e hm =>
    obtain ⟨field, mantissa, hpack, hfield⟩ := pack_finite s hm (h.2.trans hhigh)
    have he := h.2
    rw [hpack]
    refine below_unpack ?_ hlow hhigh
    rw [unpackExponent_packComponents]
    omega

theorem isFinite_unpack_pack (h : u.isFinite = true)
    (hinf : (Float.Model.pack u).unpack.isInf = false) :
    (Float.Model.pack u).unpack.isFinite = true := by
  cases u with
  | infinity s => exact absurd h Bool.false_ne_true
  | notANumber => exact absurd h Bool.false_ne_true
  | zero s => cases s <;> rfl
  | finite s m e hm =>
    change (UnpackedFloat.unpack .binary64 (UnpackedFloat.pack .binary64 _)).isFinite = true
    rcases le_or_gt e 971 with he | he
    · obtain ⟨field, mantissa, hpack, hfield⟩ := pack_finite s hm he
      have hbelow : Below 971 (UnpackedFloat.unpack .binary64
          (packComponents .binary64 s field mantissa)) := by
        refine below_unpack ?_ (by norm_num) le_rfl
        rw [unpackExponent_packComponents]
        omega
      rw [hpack]
      exact hbelow.isFinite
    · have hpack : UnpackedFloat.pack .binary64 (.finite s m e hm) =
          packedInfinity .binary64 s := by
        have hbias : (Format.binary64.exponentBias : Int) = 1023 := rfl
        refine if_pos ?_
        rw [hbias]
        norm_num
        omega
      change (UnpackedFloat.unpack .binary64 (UnpackedFloat.pack .binary64 _)).isInf = false at hinf
      rw [hpack] at hinf
      cases s <;> exact absurd hinf (by decide)

theorem below_of_isFinite {x : Float} (h : x.isFinite = true) : Below 971 x.toModel.unpack := by
  obtain ⟨⟨bits, valid⟩⟩ := x
  change (UnpackedFloat.unpack .binary64 bits.toBitVec).isFinite = true at h
  change Below 971 (UnpackedFloat.unpack .binary64 bits.toBitVec)
  refine below_unpack ?_ (by norm_num) le_rfl
  have hlt := (@unpackExponent .binary64 bits.toBitVec).isLt
  by_contra hlarge
  have hones : @unpackExponent .binary64 bits.toBitVec = -1#_ := by
    apply BitVec.eq_of_toNat_eq
    norm_num at hlt ⊢
    omega
  simp only [UnpackedFloat.unpack, hones, if_true] at h
  split at h <;> exact absurd h Bool.false_ne_true

end Packing

section Floats

variable {x y : Float} {v : Rat} {bound : Int}

/-- A number with at most 53 significant bits and an exponent up to `bound`. -/
def Bounded (bound : Int) (x : Float) : Prop := Below bound x.toModel.unpack

theorem Bounded.isFinite (h : Bounded bound x) : x.isFinite = true := Below.isFinite h

theorem isFinite_neg (h : x.isFinite = true) : (-x).isFinite = true := by
  have hneg : Bounded 971 (-x) :=
    (below_of_isFinite h).neg.unpack_pack (by norm_num) le_rfl
  exact hneg.isFinite

theorem Bounded.div_of_unpack {n : Nat} {d bound' : Int} {hn : 0 < n} (h : Bounded bound x)
    (hy : y.toModel.unpack = .finite .positive n d hn) (hlog : n.log2 = 52)
    (hd : bound - d - 52 ≤ bound') (hlow : -1074 ≤ bound') (hhigh : bound' < 971) :
    Bounded (bound' + 1) (x / y) := by
  have hxy : (x / y).toModel =
      .pack (UnpackedFloat.div .binary64 x.toModel.unpack y.toModel.unpack) := rfl
  rw [Bounded, hxy, hy]
  exact (Below.div h hn hlog hd hlow).unpack_pack (by omega) (by omega)

theorem Bounded.div (h : Bounded bound x) (hy : FromOne v y) (hlow : -1074 ≤ bound)
    (hhigh : bound < 971) : Bounded (bound + 1) (x / y) := by
  obtain ⟨n, d, hn, hu, hlog, hd, -⟩ := hy
  exact h.div_of_unpack hu hlog (by omega) hlow hhigh

def isFromTwo : UnpackedFloat → Bool
  | .finite .positive m e _ => m.log2 == 52 && -51 ≤ e
  | _ => false

theorem isFromTwo_greatest : isFromTwo (1e308 : Float).toModel.unpack = true := by
  decide +kernel

theorem Bounded.div_greatest (h : Bounded bound x) (hlow : -1073 ≤ bound) (hhigh : bound ≤ 971) :
    Bounded bound (x / 1e308) := by
  have hgreatest := isFromTwo_greatest
  generalize hu : (1e308 : Float).toModel.unpack = u at hgreatest
  unfold isFromTwo at hgreatest
  split at hgreatest
  · next n d hn =>
    simp only [Bool.and_eq_true, beq_iff_eq, decide_eq_true_eq] at hgreatest
    have hdiv : Bounded (bound - 1 + 1) (x / 1e308) :=
      h.div_of_unpack hu hgreatest.1 (by omega) (by omega) (by omega)
    rwa [sub_add_cancel] at hdiv
  · exact absurd hgreatest Bool.false_ne_true

theorem bounded_toFloat (n : UInt64) : Bounded 13 n.toFloat := by
  by_cases hn : n = 0
  · rw [hn]
    trivial
  · obtain ⟨m, e, hm, hu, hlog, -, hle⟩ := fromOne_toFloat hn
    rw [Bounded, hu]
    refine ⟨((Nat.log2_eq_iff hm.ne').mp hlog).2, ?_⟩
    by_contra hlarge
    have hself : (2 : Rat) ^ (52 : Int) ≤ m := by
      exact_mod_cast ((Nat.log2_eq_iff hm.ne').mp hlog).1
    have hn' : (n.toNat : Rat) ≤ 2 ^ 64 := by exact_mod_cast n.toNat_lt.le
    have hpow : (2 : Rat) ^ (14 : Int) ≤ 2 ^ e := zpow_le_zpow_right₀ one_le_two (by omega)
    have hlower : (2 : Rat) ^ 66 ≤ m * 2 ^ e :=
      calc (2 : Rat) ^ 66 = 2 ^ (52 : Int) * 2 ^ (14 : Int) := by norm_num
        _ ≤ m * 2 ^ e := mul_le_mul hself hpow (by norm_num) (Nat.cast_nonneg m)
    have hupper : (m : Rat) * 2 ^ e ≤ 2 ^ 64 * 2 :=
      hle.trans (mul_le_mul hn' (by norm_num [enlargement]) (by norm_num [enlargement])
        (by norm_num))
    norm_num at hlower hupper
    linarith

/-- A product of a number and one of at least one is a number, unless it is infinite. -/
theorem Bounded.isFinite_mul (h : Bounded bound x) (hy : FromOne v y)
    (hinf : (x * y).isInf = false) : (x * y).isFinite = true := by
  obtain ⟨n, d, hn, hu, -⟩ := hy
  refine isFinite_unpack_pack ?_ hinf
  rw [hu]
  have hx : x.toModel.unpack.isFinite = true := h.isFinite
  generalize x.toModel.unpack = u at hx ⊢
  cases u with
  | infinity s => exact absurd hx Bool.false_ne_true
  | notANumber => exact absurd hx Bool.false_ne_true
  | zero s => rfl
  | finite s m e hm => exact isFinite_roundWithAccuracy ..

end Floats

end LeastCost.Double
