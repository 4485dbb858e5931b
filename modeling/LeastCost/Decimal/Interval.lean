/-!
# The reals that round to a binary number

A positive binary64 number stands for every real that rounds to it. The interval of these
reals is kept exactly, as three numerators over one denominator.
-/

namespace LeastCost.Decimal

/-- The number `middle / unit` and the reals that round to it: those between `low / unit`
and `high / unit`, ends included when `closed`. -/
structure Interval where
  unit : Nat
  low : Nat
  middle : Nat
  high : Nat
  closed : Bool

def signBit : Nat := 0x8000000000000000

/-- The leading bit of a significand, which the pattern of a normal number leaves out. -/
def hiddenBit : Nat := 0x10000000000000

namespace Interval

/-- The interval of a positive finite binary64 number. The gap below a power of two is half
the gap above it, and a tie rounds to the even significand. -/
def ofFloat (x : Float) : Interval :=
  let bits := x.toBits.toNat % signBit
  let field := bits / hiddenBit
  let fraction := bits % hiddenBit
  let significand := if field = 0 then fraction else fraction + hiddenBit
  let exponent : Int := (max field 1 : Nat) - 1077
  let scale := Nat.pow 2 exponent.toNat
  let below := if fraction = 0 ∧ 1 < field then 1 else 2
  { unit := Nat.pow 2 (-exponent).toNat
    low := (4 * significand - below) * scale
    middle := 4 * significand * scale
    high := (4 * significand + 2) * scale
    closed := significand % 2 = 0 }

def holds (i : Interval) (power : Int) (count : Nat) : Bool :=
  let value := count * Nat.pow 10 power.toNat * i.unit
  let shrink := Nat.pow 10 (-power).toNat
  if i.closed then i.low * shrink ≤ value && value ≤ i.high * shrink
  else i.low * shrink < value && value < i.high * shrink

/-- The power of ten at the number's first digit. Every positive binary64 number exceeds
`10 ^ -340`, so the shifted quotient is positive. -/
def leading (i : Interval) : Int :=
  (Nat.toDigits 10 (i.middle * Nat.pow 10 340 / i.unit)).length - 341

end Interval

end LeastCost.Decimal
