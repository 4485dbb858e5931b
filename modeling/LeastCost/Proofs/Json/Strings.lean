import LeastCost.Proofs.Json.Echo

/-!
# Strings come back

Every character that is written inside a string is read back as itself, escaped or not, so a
string comes back whatever characters it has.
-/

namespace LeastCost.Json

theorem unicodeEscape_hexDigits :
    ∀ n < 0x20, (['0', '0', hexDigit (n / 16), hexDigit (n % 16)].filterMap hexDigit?) =
      [0, 0, n / 16, n % 16] := by
  decide

theorem hexQuad_control (rest : List Char) {n : Nat} (hn : n < 0x20) :
    hexQuad ('0' :: '0' :: hexDigit (n / 16) :: hexDigit (n % 16) :: rest) = .ok (n, rest) := by
  have hdigits := unicodeEscape_hexDigits n hn
  unfold hexQuad
  have htake : ('0' :: '0' :: hexDigit (n / 16) :: hexDigit (n % 16) :: rest).take 4 =
      ['0', '0', hexDigit (n / 16), hexDigit (n % 16)] := rfl
  rw [htake, hdigits]
  have hvalue : [0, 0, n / 16, n % 16].foldl (fun value d => 16 * value + d) 0 = n := by
    simp only [List.foldl_cons, List.foldl_nil]
    omega
  dsimp only
  rw [hvalue]
  rfl

theorem escape_control (rest : List Char) {n : Nat} (hn : n < 0x20) :
    escape ('u' :: '0' :: '0' :: hexDigit (n / 16) :: hexDigit (n % 16) :: rest) =
      .ok (Char.ofNat n, rest) := by
  have htrailing : isTrailing n = false := by simp [isTrailing]; omega
  have hleading : isLeading n = false := by simp [isLeading]; omega
  simp only [escape, unicodeEscape, hexQuad_control rest hn, bind, Except.bind, htrailing, hleading,
    Bool.false_eq_true, if_false, pure, Except.pure]

theorem stringBody_writeChar (fuel : Nat) (c : Char) (rest : List Char) :
    stringBody (fuel + 1) (writeChar c ++ rest) = do
      let (text, rest) ← stringBody fuel rest
      return (c :: text, rest) := by
  unfold writeChar
  split
  -- No letter stands for the character: it is a control character, or it stands for itself.
  case h_8 hquote hslash _ _ _ _ _ =>
    split
    · next hcontrol =>
      have hescape := escape_control rest hcontrol
      rw [Char.ofNat_toNat] at hescape
      simp only [List.cons_append, List.nil_append, stringBody, hescape, bind, Except.bind]
    · next hplain =>
      rw [List.singleton_append, stringBody, if_neg hplain]
      · exact hquote
      · exact hslash
  all_goals rfl

theorem stringBody_flatMap (chars : List Char) (rest : List Char) :
    ∀ fuel, chars.length < fuel →
      stringBody fuel (chars.flatMap writeChar ++ '"' :: rest) = .ok (chars, rest) := by
  induction chars with
  | nil =>
    intro fuel hfuel
    obtain ⟨fuel, rfl⟩ := Nat.exists_eq_succ_of_ne_zero (Nat.ne_zero_of_lt hfuel)
    rfl
  | cons c chars ih =>
    intro fuel hfuel
    obtain ⟨fuel, rfl⟩ := Nat.exists_eq_succ_of_ne_zero (Nat.ne_zero_of_lt hfuel)
    rw [List.flatMap_cons, List.append_assoc, stringBody_writeChar,
      ih fuel (Nat.lt_of_succ_lt_succ hfuel)]
    rfl

theorem writeChar_ne_nil (c : Char) : writeChar c ≠ [] := by
  unfold writeChar
  split <;> try exact List.cons_ne_nil _ _
  split <;> exact List.cons_ne_nil _ _

theorem readString_flatMap (text : String) (rest : List Char) :
    readString (text.toList.flatMap writeChar ++ '"' :: rest) = .ok (text, rest) := by
  have hlength : text.toList.length ≤ (text.toList.flatMap writeChar).length := by
    rw [List.length_flatMap]
    calc text.toList.length = (text.toList.map fun _ => 1).sum := by simp
      _ ≤ (text.toList.map fun c => (writeChar c).length).sum :=
          List.sum_le_sum fun c _ => List.length_pos_of_ne_nil (writeChar_ne_nil c)
  rw [readString, stringBody_flatMap]
  · simp [bind, Except.bind, pure, Except.pure]
  · rw [List.length_append, List.length_cons]
    omega

theorem writeString_append (text : String) (rest : List Char) :
    writeString text ++ rest = '"' :: (text.toList.flatMap writeChar ++ '"' :: rest) := by
  simp [writeString]

theorem readKey_writeString (text : String) (rest : List Char) :
    readKey (writeString text ++ rest) = .ok (text, rest) := by
  rw [writeString_append, readKey, mark_cons (by decide)]
  exact readString_flatMap text rest

theorem Codec.echoes_string : Codec.string.Echoes some where
  begins text := ⟨_, _, rfl, rfl, by decide⟩
  reads text rest _ := by
    change (Codec.string.read (writeString text ++ rest)).toOption = _
    rw [writeString_append]
    change (readString (text.toList.flatMap writeChar ++ '"' :: rest)).toOption = _
    rw [readString_flatMap]
    rfl

end LeastCost.Json
