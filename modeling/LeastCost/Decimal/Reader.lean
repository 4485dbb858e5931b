/-!
# Reading decimal numbers

The number nearest to a decimal text, and the whole numbers of a bounded size.
-/

namespace LeastCost.Decimal

def natOfDigits (digits : List Char) : Nat :=
  digits.foldl (fun value c => 10 * value + (c.toNat - '0'.toNat)) 0

/-- The number nearest to `digits · 10 ^ power`. Far beyond the range of exponents the
answer is zero or infinity whatever the digits are. -/
def nearest (digits : Nat) (power : Int) : Float :=
  let places := (Nat.toDigits 10 digits).length + power
  if digits = 0 ∨ places < -400 then 0
  else if 400 < places then 1 / 0
  else Float.ofScientific digits (decide (power < 0)) power.natAbs

def splitSign : List Char → Bool × List Char
  | '-' :: rest => (true, rest)
  | '+' :: rest => (false, rest)
  | rest => (false, rest)

def exponent? : List Char → Option Int
  | [] => some 0
  | e :: rest =>
    let (negative, digits) := splitSign rest
    if (e = 'e' ∨ e = 'E') ∧ digits ≠ [] ∧ digits.all Char.isDigit then
      some (if negative then -(natOfDigits digits : Int) else natOfDigits digits)
    else none

/-- An unsigned number: digits with at most one point among or beside them, and an optional
exponent. -/
def unsigned? (text : List Char) : Option Float :=
  let whole := text.takeWhile Char.isDigit
  let rest := text.dropWhile Char.isDigit
  let (fraction, tail) := match rest with
    | '.' :: after => (after.takeWhile Char.isDigit, after.dropWhile Char.isDigit)
    | _ => ([], rest)
  if whole.isEmpty && fraction.isEmpty then none
  else (exponent? tail).map fun e =>
    nearest (natOfDigits (whole ++ fraction)) (e - fraction.length)

/-- The number written by a text: an optional sign and an unsigned number, or one of the
words for infinity and for what is not a number, in any case of letters. -/
def float? (text : List Char) : Option Float :=
  let (negative, magnitude) := splitSign text
  let word := String.ofList (magnitude.map Char.toLower)
  let value :=
    if word = "inf" ∨ word = "infinity" then some (1 / 0)
    else if word = "nan" then some (0 / 0)
    else unsigned? magnitude
  value.map fun x => if negative then -x else x

def natBelow? (bound : Nat) (text : List Char) : Option Nat :=
  let digits := match text with
    | '+' :: rest => rest
    | _ => text
  if digits.isEmpty then none
  else if digits.all Char.isDigit ∧ natOfDigits digits < bound then some (natOfDigits digits)
  else none

end LeastCost.Decimal
