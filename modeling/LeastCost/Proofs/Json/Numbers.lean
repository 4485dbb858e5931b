import LeastCost.Proofs.Json.Echo

/-!
# Numbers come back

The text of a finite number is the spelling of a numeral that stands for the shortest digits, in
either layout. Only the few numbers next to overflow are beyond reach; their numerals are known
one by one. So exactly the finite numbers come back as numbers.
-/

namespace LeastCost.Json

open Decimal

namespace Numeral

variable {d : Digits} {isNegative : Bool} {x : Float}

def positional (isNegative : Bool) (d : Digits) : Numeral :=
  if d.point ≤ 0 then
    ⟨isNegative, ['0'], List.replicate (-d.point).toNat '0' ++ d.digits, none⟩
  else if d.digits.length ≤ d.point then
    ⟨isNegative, d.digits ++ List.replicate (d.point - d.digits.length).toNat '0', ['0'], none⟩
  else
    ⟨isNegative, d.digits.take d.point.toNat, d.digits.drop d.point.toNat, none⟩

def scientific (isNegative : Bool) (d : Digits) : Numeral :=
  ⟨isNegative, d.digits.take 1, d.digits.drop 1, some (d.point - 1)⟩

def ofDigits (isNegative : Bool) (d : Digits) : Numeral :=
  if numberStyle.positional d.point then positional isNegative d else scientific isNegative d

theorem wellFormed_positional (h : d.Proper) : (positional isNegative d).WellFormed := by
  unfold positional
  split
  · refine ⟨List.cons_ne_nil _ _, by simp, fun _ => rfl, ?_⟩
    intro c hc
    rcases List.mem_append.mp hc with hzero | hdigit
    · rw [List.eq_of_mem_replicate hzero]
      decide
    · exact h.isDigit c hdigit
  · split
    · refine ⟨by simp [h.ne_nil], ?_, ?_, by simp⟩
      · intro c hc
        rcases List.mem_append.mp hc with hdigit | hzero
        · exact h.isDigit c hdigit
        · rw [List.eq_of_mem_replicate hzero]
          decide
      · intro hhead
        rw [List.head?_append_of_ne_nil _ h.ne_nil] at hhead
        rw [h.head hhead]
        rfl
    · next hpos hlong =>
      refine ⟨?_, fun c hc => h.isDigit c (List.mem_of_mem_take hc), ?_,
        fun c hc => h.isDigit c (List.mem_of_mem_drop hc)⟩
      · have := List.length_pos_of_ne_nil h.ne_nil
        simp only [ne_eq, List.take_eq_nil_iff, h.ne_nil, or_false]
        omega
      · intro hhead
        -- Zero has no digit behind its point.
        rw [List.head?_take, if_neg (by omega)] at hhead
        rw [h.head hhead] at hlong
        exact absurd le_rfl hlong

theorem wellFormed_scientific (h : d.Proper) : (scientific isNegative d).WellFormed := by
  obtain ⟨c, ds, hd⟩ := List.exists_cons_of_ne_nil h.ne_nil
  have hwhole : (scientific isNegative d).whole = [c] := by simp [scientific, hd]
  refine ⟨by simp [hwhole], ?_, ?_, fun c hc => h.isDigit c (List.mem_of_mem_drop hc)⟩
  · intro c' hc'
    exact h.isDigit c' (List.mem_of_mem_take hc')
  · intro hhead
    rw [hwhole] at hhead ⊢
    exact congrArg ([·]) (Option.some.inj hhead)

theorem wellFormed_ofDigits (h : d.Proper) : (ofDigits isNegative d).WellFormed := by
  unfold ofDigits
  split
  · exact wellFormed_positional h
  · exact wellFormed_scientific h

theorem size_positional : (positional isNegative d).size = d.size := by
  unfold positional
  split
  · next hneg =>
    have hpoint : ((0 : Int) - (List.replicate (-d.point).toNat '0' ++ d.digits).length) =
        d.point - d.digits.length := by
      rw [List.length_append, List.length_replicate]
      omega
    have hvalue : natOfDigits ('0' :: (List.replicate (-d.point).toNat '0' ++ d.digits)) =
        natOfDigits d.digits := by
      rw [← List.cons_append, ← List.replicate_succ, natOfDigits_append,
        natOfDigits_replicate_zero, Nat.zero_mul, Nat.zero_add]
    simp only [size, Digits.size, Option.getD_none, hpoint, List.singleton_append, hvalue]
  · split
    · next hpos hle =>
      obtain ⟨zeros, hz⟩ : ∃ zeros : Nat, d.point - d.digits.length = zeros :=
        ⟨(d.point - d.digits.length).toNat, by omega⟩
      have hvalue : natOfDigits (d.digits ++ List.replicate zeros '0' ++ ['0']) =
          natOfDigits d.digits * 10 ^ zeros * 10 := by
        rw [natOfDigits_append, natOfDigits_append, natOfDigits_replicate_zero,
          List.length_replicate]
        rfl
      simp only [size, Digits.size, Option.getD_none, hz, Int.toNat_natCast, hvalue,
        List.length_singleton, zpow_natCast]
      push_cast
      norm_num
      ring
    · next hpos hlong =>
      have hpoint : ((0 : Int) - (d.digits.drop d.point.toNat).length) =
          d.point - d.digits.length := by
        rw [List.length_drop]
        omega
      simp only [size, Digits.size, Option.getD_none, hpoint, List.take_append_drop]

theorem size_scientific (h : d.digits ≠ []) : (scientific isNegative d).size = d.size := by
  have hpos := List.length_pos_of_ne_nil h
  have hpoint : d.point - 1 - ((d.digits.drop 1).length : Int) = d.point - d.digits.length := by
    rw [List.length_drop]
    omega
  simp only [scientific, size, Digits.size, Option.getD_some, hpoint, List.take_append_drop]

theorem size_ofDigits (h : d.digits ≠ []) : (ofDigits isNegative d).size = d.size := by
  unfold ofDigits
  split
  · exact size_positional
  · exact size_scientific h

theorem length_whole_ofDigits_le (isNegative : Bool) (d : Digits) :
    (ofDigits isNegative d).whole.length ≤ 16 := by
  unfold ofDigits
  split
  · next hplace =>
    simp only [numberStyle, Bool.and_eq_true, decide_eq_true_eq] at hplace
    unfold positional
    split
    · simp
    · split
      · simp only [List.length_append, List.length_replicate]
        omega
      · simp only [List.length_take]
        omega
  · simp only [scientific, List.length_take]
    omega

theorem body_positional (h : d.digits ≠ []) :
    (positional isNegative d).body = numberStyle.positionalText d := by
  unfold positional Style.positionalText
  split
  · obtain ⟨c, cs, hc⟩ := List.exists_cons_of_ne_nil
      (List.append_ne_nil_of_right_ne_nil (List.replicate (-d.point).toNat '0') h)
    simp [body, spellExponent, hc, spellFraction]
  · split
    · simp [body, spellExponent, spellFraction, numberStyle]
    · next hpos hlong =>
      obtain ⟨c, cs, hc⟩ := List.exists_cons_of_ne_nil
        (by simp only [ne_eq, List.drop_eq_nil_iff]; omega : d.digits.drop d.point.toNat ≠ [])
      simp [body, spellExponent, hc, spellFraction]

theorem body_scientific : (scientific isNegative d).body = Style.scientificText d := by
  have hfraction : spellFraction (d.digits.drop 1) =
      if d.digits.length ≤ 1 then [] else '.' :: d.digits.drop 1 := by
    split
    · next hle => rw [List.drop_eq_nil_of_le hle, spellFraction]
    · next hlt =>
      obtain ⟨c, cs, hc⟩ := List.exists_cons_of_ne_nil
        (by simp only [ne_eq, List.drop_eq_nil_iff]; omega : d.digits.drop 1 ≠ [])
      rw [hc, spellFraction]
      simp
  simp only [body, scientific, Style.scientificText, hfraction, spellExponent, List.append_assoc]

theorem spell_ofDigits (isNegative : Bool) (h : d.digits ≠ []) :
    (ofDigits isNegative d).spell = (if isNegative then ['-'] else []) ++
      if numberStyle.positional d.point then numberStyle.positionalText d
      else Style.scientificText d := by
  have hsign : (ofDigits isNegative d).isNegative = isNegative := by
    unfold ofDigits positional
    split
    · split
      · rfl
      · split <;> rfl
    · rfl
  rw [spell, hsign]
  congr 1
  unfold ofDigits
  split
  · exact body_positional h
  · exact body_scientific

/-- The numeral of a finite number. -/
def ofFloat (x : Float) : Numeral :=
  ofDigits (decide (signBit ≤ x.toBits.toNat)) (shortest .even x)

theorem wellFormed_ofFloat (x : Float) : (ofFloat x).WellFormed :=
  wellFormed_ofDigits (proper_shortest .even x)

theorem spell_ofFloat (x : Float) : (ofFloat x).spell = numberStyle.write x := by
  rw [ofFloat, spell_ofDigits _ (proper_shortest .even x).ne_nil]
  unfold Style.write
  dsimp only
  by_cases hsign : x.toBits.toNat < signBit
  · rw [if_pos hsign, decide_eq_false (not_le.mpr hsign)]
    rfl
  · rw [if_neg hsign, decide_eq_true (not_lt.mp hsign)]
    rfl

/-- The numbers next to overflow, from the greatest one down. -/
def top (k : Nat) : Float := Float.ofBits (0x7fefffffffffffff - k.toUInt64)

theorem magnitude_top :
    ∀ k < 6, (top k).toBits.toNat % signBit = 0x7fefffffffffffff - k := by
  decide +kernel

theorem isSome_toFloat_top : ∀ k < 6, ∀ isNegative,
    (ofDigits isNegative ((Interval.ofFloat (top k)).shortest .even)).toFloat.toOption.isSome := by
  decide +kernel

/-- Every finite number that is written has a value when it is read. -/
theorem toFloat_ofFloat_ok (h : x.isFinite = true) : ∃ y, (ofFloat x).toFloat = .ok y := by
  have hproper := proper_shortest .even x
  by_cases hsize : (shortest .even x).size ≤ Double.reach
  · have hwhole : natOfDigits (ofFloat x).whole < significandBound :=
      calc natOfDigits (ofFloat x).whole < 10 ^ (ofFloat x).whole.length :=
            natOfDigits_lt (wellFormed_ofFloat x).whole_isDigit
        _ ≤ 10 ^ 16 := Nat.pow_le_pow_right (by decide) (length_whole_ofDigits_le _ _)
        _ < significandBound := by decide
    exact toFloat_ok hwhole ((size_ofDigits hproper.ne_nil).trans_le hsize)
  · -- The bound on rounding is too coarse next to overflow, where only six magnitudes are left.
    have hlast : Interval.lastInReach < x.toBits.toNat % signBit :=
      not_le.mp fun hle => hsize (size_shortest_le .even hle)
    have hfinite := magnitude_le_of_isFinite h
    have hnonzero : ¬(x == 0) = true := by
      intro hzero
      rw [shortest, if_pos hzero, Digits.size_zero] at hsize
      exact hsize (by norm_num [Double.reach])
    obtain ⟨k, hk, hx⟩ : ∃ k < 6, x.toBits.toNat % signBit = 0x7fefffffffffffff - k := by
      simp only [Interval.lastInReach] at hlast
      exact ⟨0x7fefffffffffffff - x.toBits.toNat % signBit, by omega, by omega⟩
    have htop := isSome_toFloat_top k hk (decide (signBit ≤ x.toBits.toNat))
    rw [← Interval.ofFloat_congr (hx.trans (magnitude_top k hk).symm)] at htop
    rw [ofFloat, shortest, if_neg hnonzero]
    generalize (ofDigits _ _).toFloat = result at htop
    cases result with
    | ok y => exact ⟨y, rfl⟩
    | error fault => exact absurd htop Bool.false_ne_true

end Numeral

namespace Codec

variable {n : Numeral} {first : Char} {tail rest : List Char} {x : Float}

theorem not_blank (h : first = '-' ∨ first.isDigit) :
    isBlank first = false ∧ first ≠ ']' ∧ first ≠ 'n' := by
  rcases h with rfl | h
  · decide
  · refine ⟨?_, ?_, ?_⟩
    · by_contra hblank
      simp only [isBlank, Bool.not_eq_false, Bool.or_eq_true, beq_iff_eq] at hblank
      rcases hblank with ((rfl | rfl) | rfl) | rfl <;> exact absurd h (by decide)
    · rintro rfl
      exact absurd h (by decide)
    · rintro rfl
      exact absurd h (by decide)

theorem readNumeral_spell (h : n.WellFormed) (hrest : Delimits rest) (hx : n.toFloat = .ok x) :
    readNumeral (n.spell ++ rest) = .ok (n, x, rest) := by
  obtain ⟨first, tail, hspell, hfirst⟩ := Numeral.spell_eq_cons h
  have hskip : skipBlanks (n.spell ++ rest) = n.spell ++ rest := by
    rw [hspell, List.cons_append, skipBlanks_cons (not_blank hfirst).1]
  have hstarts : Numeral.startsWith (n.spell ++ rest) = true := by
    rw [hspell]
    simpa [Numeral.startsWith] using hfirst
  simp only [readNumeral, hskip, hstarts, Numeral.read_spell h hrest, hx, bind, Except.bind,
    if_true, pure, Except.pure]

theorem number_write (h : x.isFinite = true) : number.write x = (Numeral.ofFloat x).spell :=
  (if_pos h).trans (Numeral.spell_ofFloat x).symm

theorem number_write_of_not_finite (h : ¬x.isFinite = true) :
    number.write x = ['n', 'u', 'l', 'l'] :=
  if_neg h

theorem number_write_eq_cons (h : x.isFinite = true) :
    ∃ first tail, number.write x = first :: tail ∧ (first = '-' ∨ first.isDigit) := by
  rw [number_write h]
  exact Numeral.spell_eq_cons (Numeral.wellFormed_ofFloat x)

theorem number_write_head_ne (h : x.isFinite = true) : number.write x ≠ 'n' :: tail := by
  obtain ⟨first, tail', hwrite, hfirst⟩ := number_write_eq_cons h
  rw [hwrite]
  exact fun heq => (not_blank hfirst).2.2 (List.cons.inj heq).1

theorem number_write_null (x : Float) (tail : List Char) (h : number.write x = 'n' :: tail) :
    tail = ['u', 'l', 'l'] := by
  by_cases hx : x.isFinite = true
  · exact absurd h (number_write_head_ne hx)
  · rw [number_write_of_not_finite hx] at h
    exact (List.cons.inj h).2.symm

/-- What comes back of a number: the value of its numeral, and nothing unless it is finite. -/
def reread (x : Float) : Option Float :=
  if x.isFinite then (Numeral.ofFloat x).toFloat.toOption else none

theorem isSome_reread (x : Float) : (reread x).isSome = x.isFinite := by
  unfold reread
  split
  · next h =>
    obtain ⟨y, hy⟩ := Numeral.toFloat_ofFloat_ok h
    rw [hy, h]
    rfl
  · next h => exact (Bool.not_eq_true _).mp h |>.symm

theorem echoes_number : number.Echoes reread where
  begins x := by
    by_cases hx : x.isFinite = true
    · obtain ⟨first, tail, hwrite, hfirst⟩ := number_write_eq_cons hx
      exact ⟨first, tail, hwrite, (not_blank hfirst).1, (not_blank hfirst).2.1⟩
    · exact ⟨_, _, number_write_of_not_finite hx, rfl, by decide⟩
  reads x rest hrest := by
    by_cases hx : x.isFinite = true
    · obtain ⟨y, hy⟩ := Numeral.toFloat_ofFloat_ok hx
      have hread := readNumeral_spell (Numeral.wellFormed_ofFloat x) hrest hy
      rw [number_write hx, reread, if_pos hx, hy]
      change (readNumeral _ >>= fun found => pure (found.2.1, found.2.2)).toOption = _
      rw [hread]
      rfl
    · rw [number_write_of_not_finite hx, reread, if_neg hx]
      rfl

def indexNumeral (value : UInt64) : Numeral := ⟨false, Nat.toDigits 10 value.toNat, [], none⟩

theorem wellFormed_indexNumeral (value : UInt64) : (indexNumeral value).WellFormed := by
  refine ⟨Nat.toDigits_ne_nil, fun c hc => isDigit_of_mem_toDigits hc, fun hhead => ?_,
    by simp [indexNumeral]⟩
  rcases Nat.eq_zero_or_pos value.toNat with hzero | hpos
  · change Nat.toDigits 10 value.toNat = ['0']
    rw [hzero, Nat.toDigits_zero]
  · exact absurd hhead (head?_toDigits_ne_zero hpos)

theorem index_write (value : UInt64) : index.write value = (indexNumeral value).spell := by
  simp [index, indexNumeral, Numeral.spell, Numeral.body, Numeral.spellFraction,
    Numeral.spellExponent]

theorem toFloat_indexNumeral_ok (value : UInt64) : ∃ x, (indexNumeral value).toFloat = .ok x := by
  have hlt : value.toNat < Numeral.significandBound := value.toNat_lt
  refine Numeral.toFloat_ok ?_ ?_
  · rwa [indexNumeral, natOfDigits_toDigits]
  · have hsize : (indexNumeral value).size = value.toNat := by
      simp [Numeral.size, indexNumeral]
    exact hsize.trans_le (Double.toNat_le_reach value)

theorem toWord?_indexNumeral (value : UInt64) : (indexNumeral value).toWord? = some value := by
  have hlt : value.toNat < Numeral.significandBound := value.toNat_lt
  simp [Numeral.toWord?, indexNumeral, hlt]

theorem echoes_index : index.Echoes some where
  begins value := by
    obtain ⟨first, tail, hspell, hfirst⟩ := Numeral.spell_eq_cons (wellFormed_indexNumeral value)
    exact ⟨first, tail, (index_write value).trans hspell, (not_blank hfirst).1,
      (not_blank hfirst).2.1⟩
  reads value rest hrest := by
    obtain ⟨x, hx⟩ := toFloat_indexNumeral_ok value
    have hread := readNumeral_spell (wellFormed_indexNumeral value) hrest hx
    change (index.read _).toOption = _
    rw [index_write]
    unfold index
    simp only [hread, toWord?_indexNumeral, bind, Except.bind]
    rfl

end Codec

end LeastCost.Json
