import LeastCost.Decimal.Reader
import LeastCost.Json.Token

/-!
# Numbers of JSON

The grammar of numbers, the value of a number as a binary one, and the numbers that count as
a word.
-/

namespace LeastCost.Json

/-- The parts of a number. A fraction has at least one digit; the exponent is zero where there
is none. -/
structure Numeral where
  isNegative : Bool
  whole : List Char
  fraction : List Char
  exponent : Option Int

def splitDigits (text : List Char) : List Char × List Char :=
  (text.takeWhile Char.isDigit, text.dropWhile Char.isDigit)

def digits (text : List Char) : Except Fault (List Char × List Char) :=
  match splitDigits text with
  | ([], []) => .error .truncated
  | ([], _) => .error .malformed
  | found => .ok found

/-- Reads the whole part: a zero that no digit follows, or digits that start with another. -/
def wholePart (text : List Char) : Except Fault (List Char × List Char) := do
  let (found, rest) ← digits text
  if found.head? = some '0' ∧ found ≠ ['0'] then throw .malformed
  return (found, rest)

def fractionPart : List Char → Except Fault (List Char × List Char)
  | '.' :: rest => digits rest
  | text => .ok ([], text)

def exponentPart : List Char → Except Fault (Option Int × List Char)
  | c :: rest =>
    if c = 'e' ∨ c = 'E' then do
      let (isNegative, rest) := Decimal.splitSign rest
      let (found, rest) ← digits rest
      let size : Int := Decimal.natOfDigits found
      return (some (if isNegative then -size else size), rest)
    else .ok (none, c :: rest)
  | [] => .ok (none, [])

namespace Numeral

def startsWith : List Char → Bool
  | c :: _ => c == '-' || c.isDigit
  | [] => false

def read (text : List Char) : Except Fault (Numeral × List Char) := do
  let (isNegative, rest) : Bool × List Char := match text with
    | '-' :: rest => (true, rest)
    | _ => (false, text)
  let (whole, rest) ← wholePart rest
  let (fraction, rest) ← fractionPart rest
  let (exponent, rest) ← exponentPart rest
  return (⟨isNegative, whole, fraction, exponent⟩, rest)

def significandBound : Nat := 0x10000000000000000

/-- Takes digits into a significand as long as it stays below the bound. -/
def absorb (significand : Nat) : List Char → Nat × List Char
  | [] => (significand, [])
  | c :: rest =>
    let longer := 10 * significand + (c.toNat - '0'.toNat)
    if longer < significandBound then absorb longer rest else (significand, c :: rest)

/-- Divides by a power of ten, in steps that are powers themselves. -/
def divideByPower (x : Float) (power : Nat) : Float :=
  if power ≤ 308 then x / Float.ofScientific 1 false power
  else if x == 0 then x
  else divideByPower (x / 1e308) (power - 308)
  termination_by power

/-- A significand times a power of ten. A number too large for a binary one is a fault, a
number too small is zero. -/
def scale (significand : Nat) (power : Int) : Except Fault Float :=
  let x := significand.toUInt64.toFloat
  if power < 0 then .ok (divideByPower x power.natAbs)
  else if power ≤ 308 then
    let scaled := x * Float.ofScientific 1 false power.natAbs
    if scaled.isInf then .error .malformed else .ok scaled
  else if x == 0 then .ok x
  else .error .malformed

/-- The value of a number. Whole digits beyond the significand count as a power of ten,
fraction digits beyond it do not count. -/
def toFloat (n : Numeral) : Except Fault Float := do
  let (whole, beyond) := absorb 0 n.whole
  let (significand, dropped) := absorb whole n.fraction
  let power : Int := beyond.length - (n.fraction.length - dropped.length : Nat)
  let x ← scale significand (power + n.exponent.getD 0)
  return if n.isNegative then -x else x

/-- The value of a number that is written as a whole one, without sign or exponent, and fits
a word. -/
def toWord? (n : Numeral) : Option UInt64 :=
  let value := Decimal.natOfDigits n.whole
  if !n.isNegative && n.fraction.isEmpty && n.exponent.isNone && value < significandBound then
    some value.toUInt64
  else none

/-- Passes over a number. Only its grammar matters, and a number cut short is malformed. -/
def skip (text : List Char) : Except Fault (List Char) :=
  match read text with
  | .ok (_, rest) => .ok rest
  | .error _ => .error .malformed

end Numeral

end LeastCost.Json
