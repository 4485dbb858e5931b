/-!
# Scalars

The engines compute over any type of scalars. Binary64 numbers are what a service runs on;
exact rationals are what its mathematics is about.

Nothing is assumed of the operations here. A comparison with something that is not a number
may fail in both directions, and every definition below says what happens then.
-/

namespace LeastCost

/-- A type of numbers with the four operations and a decidable order. -/
class Scalar (α : Type) extends
    Zero α, One α, Add α, Sub α, Mul α, Div α, Neg α, LT α, LE α where
  decidableLT : DecidableLT α
  decidableLE : DecidableLE α
  /-- Neither infinite nor undefined. -/
  isFinite : α → Bool
  /-- A total order to sort by, which agrees with `≤` and also ranks what `≤` leaves equal
  or unrelated. -/
  precedes : α → α → Bool
  /-- The text of a number inside a message. -/
  text : α → String

attribute [reducible, instance] Scalar.decidableLT Scalar.decidableLE

namespace Scalar

variable {α : Type} [Scalar α]

/-- Equal to zero as a number: both signs of zero are. -/
def isZero (x : α) : Bool := decide (x ≤ 0) && decide (0 ≤ x)

def abs (x : α) : α := if x < 0 then -x else x

/-- The greater of two numbers, or the one that is a number. -/
def max (x y : α) : α := if y ≤ x then x else if y ≤ y then y else x

def min (x y : α) : α := if x ≤ y then x else if y ≤ y then y else x

/-- Below a value that exceeds every finite number. -/
def isBounded (x : α) : Bool := isFinite x || decide (x < 0)

def clean (tolerance x : α) : α := if abs x ≤ tolerance then 0 else x

/-- The sum from left to right. It starts at negative zero, the one start that changes no
number it is added to. -/
def sum (xs : List α) : α := xs.foldl (· + ·) (-0)

/-- The sum of the products of corresponding entries, up to the shorter list. -/
def dot (xs ys : List α) : α := sum (xs.zipWith (· * ·) ys)

end Scalar

end LeastCost
