import LeastCost.Decimal.Shortest

/-!
# Styles of decimal text

A style says how the shortest digits of a number are laid out: which numbers are written
positionally, whether a whole number keeps a point, and which way a tie goes. All others are
written with an exponent that always bears its sign.
-/

namespace LeastCost.Decimal

structure Style where
  tie : Tie
  /-- Whether numbers whose digits start at this place are written without exponent. -/
  positional : Int → Bool
  /-- Whether a whole number is followed by `.0`. -/
  wholePoint : Bool

/-- Never an exponent, and no point in a whole number. -/
def Style.plain : Style := ⟨.up, fun _ => true, false⟩

namespace Style

def positionalText (style : Style) (d : Digits) : List Char :=
  if d.point ≤ 0 then
    '0' :: '.' :: (List.replicate (-d.point).toNat '0' ++ d.digits)
  else if d.digits.length ≤ d.point then
    d.digits ++ List.replicate (d.point - d.digits.length).toNat '0' ++
      (if style.wholePoint then ['.', '0'] else [])
  else
    d.digits.take d.point.toNat ++ '.' :: d.digits.drop d.point.toNat

def scientificText (d : Digits) : List Char :=
  let exponent := d.point - 1
  let fraction := if d.digits.length ≤ 1 then [] else '.' :: d.digits.drop 1
  let sign := if exponent < 0 then '-' else '+'
  d.digits.take 1 ++ fraction ++ 'e' :: sign :: Nat.toDigits 10 exponent.natAbs

def write (style : Style) (x : Float) : List Char :=
  let d := shortest style.tie x
  let magnitude := if style.positional d.point then style.positionalText d else scientificText d
  if x.toBits.toNat < signBit then magnitude else '-' :: magnitude

end Style

end LeastCost.Decimal
