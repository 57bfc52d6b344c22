import XPath.Decimal.Shortest

/-!
# Text of numbers

Numbers are written positionally, without an exponent, in the fewest digits that read back. A whole
number has no fraction, and the sign of zero is kept. `xs:double` has its own words for the numbers
that are not finite.
-/

namespace XPath.Decimal

open Power XPath.Text

/-- The digits of `d * 10 ^ g` with a point where one is needed. -/
def positional (n : Numeral) : List Char :=
  let ds := natDigits n.digits
  if 0 ≤ n.exponent then ds ++ List.replicate n.exponent.toNat '0'
  else
    let places := (-n.exponent).toNat
    if places < ds.length then
      ds.take (ds.length - places) ++ '.' :: ds.drop (ds.length - places)
    else '0' :: '.' :: List.replicate (places - ds.length) '0' ++ ds

def magnitudeText (p : Parts) : List Char :=
  if p.mantissa = 0 then ['0']
  else if p.isIntegral && p.whole < 10 ^ (15 : Nat) then natDigits p.whole
  else positional (shortest p.mantissa p.exponent)

/-- Text of an `xs:decimal`. -/
def decimalText (x : Float) : String :=
  match parts? x with
  | some p =>
    let ds := magnitudeText p
    String.ofList (if p.negative then '-' :: ds else ds)
  | none => if x.isNaN then "NaN" else if isNegative x then "-inf" else "inf"

/-- Text of an `xs:double`. -/
def doubleText (x : Float) : String :=
  if x.isNaN then "NaN"
  else if x.isInf then if isNegative x then "-INF" else "INF"
  else decimalText x

end XPath.Decimal
