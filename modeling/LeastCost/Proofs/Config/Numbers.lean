import LeastCost.Config.Address
import Mathlib.Algebra.Ring.Nat
import Mathlib.Data.List.Basic

/-! # Numbers inside addresses

The digits of a number, in base ten or sixteen, are read back as that number where no digit
follows. An octet has at most three of them, a group at most four, and neither starts with a
zero unless it is zero.
-/

namespace LeastCost.Config.SocketAddress

variable {base n bound : Nat} {rest : List Char}

theorem digit?_digitChar (hbase : base ≤ 16) {d : Nat} (hd : d < base) :
    digit? base (Nat.digitChar d) = some d := by
  have hall : ∀ base < 17, ∀ d < base, digit? base (Nat.digitChar d) = some d := by decide
  exact hall base (Nat.lt_succ_of_le hbase) d hd

theorem digit?_of_mem_head? {c : Char} (h : digit? base c = none) (rest : List Char) :
    ∀ d ∈ (c :: rest).head?, digit? base d = none := by
  rintro d ⟨⟩
  exact h

theorem ofDigits_append_singleton (base : Nat) (digits : List Nat) (d : Nat) :
    ofDigits base (digits ++ [d]) = base * ofDigits base digits + d := by
  simp [ofDigits]

/-- What the digits of a number stand for, first the greatest. -/
structure Spells (base n : Nat) (digits : List Nat) : Prop where
  toDigits_eq : Nat.toDigits base n = digits.map Nat.digitChar
  lt_base : ∀ d ∈ digits, d < base
  ofDigits_eq : ofDigits base digits = n
  head_eq_zero : digits.head? = some 0 → digits = [0]

theorem exists_spells (hbase : 1 < base) (n : Nat) : ∃ digits, Spells base n digits := by
  induction n using Nat.strongRecOn with
  | ind n ih =>
    rcases Nat.lt_or_ge n base with hlt | hge
    · exact ⟨[n], by rw [Nat.toDigits_of_lt_base hlt]; rfl, by simpa using hlt, by simp [ofDigits],
        by simp⟩
    · have hquotient : 0 < n / base := Nat.div_pos hge (by omega)
      obtain ⟨digits, h⟩ := ih (n / base) (Nat.div_lt_self (by omega) hbase)
      refine ⟨digits ++ [n % base], ?_, ?_, ?_, ?_⟩
      · rw [Nat.toDigits_eq_if hbase, if_neg (Nat.not_lt.mpr hge), h.toDigits_eq, List.map_append]
        rfl
      · intro d hd
        rcases List.mem_append.mp hd with hd | hd
        · exact h.lt_base d hd
        · rw [List.mem_singleton.mp hd]
          exact Nat.mod_lt n (by omega)
      · rw [ofDigits_append_singleton, h.ofDigits_eq, Nat.div_add_mod]
      · intro hhead
        -- The quotient is not zero, so its digits do not start with one.
        rcases digits with _ | ⟨first, digits⟩
        · have hzero : 0 = n / base := h.ofDigits_eq
          omega
        · obtain rfl : first = 0 := Option.some.inj hhead
          have hzero : digits = [] := List.tail_eq_of_cons_eq (h.head_eq_zero rfl)
          subst hzero
          have hvalue : 0 = n / base := h.ofDigits_eq
          omega

namespace Spells

variable {digits : List Nat}

theorem length_eq (h : Spells base n digits) : digits.length = (Nat.toDigits base n).length := by
  rw [h.toDigits_eq, List.length_map]

theorem ne_nil (h : Spells base n digits) : digits ≠ [] := by
  rintro rfl
  exact Nat.toDigits_ne_nil h.toDigits_eq

theorem length_le (h : Spells base n digits) (hbase : 1 < base) {k : Nat} (hk : 0 < k)
    (hn : n < base ^ k) : digits.length ≤ k := by
  rw [h.length_eq]
  exact (Nat.length_toDigits_le_iff hbase hk).mpr hn

theorem readDigits_eq (h : Spells base n digits) (hbase : base ≤ 16)
    (hrest : ∀ c ∈ rest.head?, digit? base c = none) :
    readDigits base (Nat.toDigits base n ++ rest) = (digits, rest) := by
  have hdigits : ∀ c ∈ Nat.toDigits base n, (digit? base c).isSome = true := by
    intro c hc
    rw [h.toDigits_eq, List.mem_map] at hc
    obtain ⟨d, hd, rfl⟩ := hc
    rw [digit?_digitChar hbase (h.lt_base d hd)]
    rfl
  have hvalues : (Nat.toDigits base n).filterMap (digit? base) = digits := by
    rw [h.toDigits_eq, List.filterMap_map]
    refine (List.filterMap_congr fun d hd => ?_).trans List.filterMap_some
    exact digit?_digitChar hbase (h.lt_base d hd)
  have hstop : rest.takeWhile (fun c => (digit? base c).isSome) = [] ∧
      rest.dropWhile (fun c => (digit? base c).isSome) = rest := by
    cases rest with
    | nil => exact ⟨rfl, rfl⟩
    | cons c rest => simp [hrest c rfl]
  simp only [readDigits]
  rw [List.takeWhile_append_of_pos hdigits, List.dropWhile_append_of_pos hdigits, hstop.1, hstop.2,
    List.append_nil, hvalues]

end Spells

theorem readOctet_toDigits (o : UInt8) (hrest : ∀ c ∈ rest.head?, digit? 10 c = none) :
    readOctet (Nat.toDigits 10 o.toNat ++ rest) = some (o, rest) := by
  obtain ⟨digits, h⟩ := exists_spells (by decide : 1 < 10) o.toNat
  have hlt := o.toNat_lt
  have hlength : digits.length ≤ 3 := h.length_le (by decide) (by decide) (by omega)
  rw [readOctet, h.readDigits_eq (by decide) hrest]
  dsimp only
  rw [h.ofDigits_eq, if_neg]
  · simp
  · rintro (hnil | hlong | ⟨hhead, hne⟩ | hgt)
    · exact h.ne_nil hnil
    · omega
    · exact hne (h.head_eq_zero hhead)
    · omega

theorem readGroup_toDigits (g : UInt16) (hrest : ∀ c ∈ rest.head?, digit? 16 c = none) :
    readGroup (Nat.toDigits 16 g.toNat ++ rest) = some (g, rest) := by
  obtain ⟨digits, h⟩ := exists_spells (by decide : 1 < 16) g.toNat
  have hlt := g.toNat_lt
  have hlength : digits.length ≤ 4 := h.length_le (by decide) (by decide) (by omega)
  rw [readGroup, h.readDigits_eq (by decide) hrest]
  dsimp only
  rw [h.ofDigits_eq, if_neg]
  · simp
  · rintro (hnil | hlong)
    · exact h.ne_nil hnil
    · omega

theorem readBelow_toDigits (hn : n < bound) (hrest : ∀ c ∈ rest.head?, digit? 10 c = none) :
    readBelow bound (Nat.toDigits 10 n ++ rest) = some (n, rest) := by
  obtain ⟨digits, h⟩ := exists_spells (by decide : 1 < 10) n
  rw [readBelow, h.readDigits_eq (by decide) hrest]
  dsimp only
  rw [h.ofDigits_eq, if_pos ⟨h.ne_nil, hn⟩]

end LeastCost.Config.SocketAddress
