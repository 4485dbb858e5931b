import LeastCost.Decimal.Interval

/-!
# Shortest digits

The fewest decimal digits that read back as a binary number, and among those the nearest
ones. If a multiple of a power of ten lies in the interval of a number, so does one of the
two multiples next to the number itself, so only these two are tried for each length.
-/

namespace LeastCost.Decimal

inductive Tie where
  | up
  | even

/-- The digits `d₁ d₂ …` of the number `0.d₁d₂… · 10 ^ point`. -/
structure Digits where
  digits : List Char
  point : Int

namespace Digits

def zero : Digits := ⟨['0'], 1⟩

def ofMultiple (count : Nat) (power : Int) : Digits :=
  let all := Nat.toDigits 10 count
  ⟨(all.reverse.dropWhile (· == '0')).reverse, power + all.length⟩

end Digits

namespace Interval

/-- The multiple of `10 ^ power` next to the number that rounds to it, if there is one; of
two the nearer. -/
def nearest? (tie : Tie) (i : Interval) (power : Int) : Option Nat :=
  let step := Nat.pow 10 power.toNat * i.unit
  let shrink := Nat.pow 10 (-power).toNat
  let down := i.middle * shrink / step
  match i.holds power down, i.holds power (down + 1) with
  | false, false => none
  | true, false => some down
  | false, true => some (down + 1)
  | true, true =>
    match compare (2 * i.middle * shrink) ((2 * down + 1) * step) with
    | .lt => some down
    | .gt => some (down + 1)
    | .eq =>
      match tie with
      | .up => some (down + 1)
      | .even => some (down + down % 2)

/-- The shortest digits of the number. Seventeen digits tell all binary64 numbers apart. -/
def shortest (tie : Tie) (i : Interval) : Digits :=
  let found := (List.range 17).findSome? fun (n : Nat) =>
    let power := i.leading - n
    (i.nearest? tie power).map (Digits.ofMultiple · power)
  found.getD Digits.zero

end Interval

def shortest (tie : Tie) (x : Float) : Digits :=
  if x == 0 then Digits.zero else (Interval.ofFloat x).shortest tie

end LeastCost.Decimal
