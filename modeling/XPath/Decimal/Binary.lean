import XPath.Text.Numeral

/-!
# Binary floating-point numbers, exactly

A finite double is `± mantissa * 2 ^ exponent`. This file reads these parts off the bits and does with
them, in whole numbers, what must be exact: cutting and rounding to an integer, telling whether a
number is one, the remainder of a division, and the double nearest to a fraction.
-/

namespace XPath.Decimal

open Power

/-- The number `mantissa * 2 ^ exponent` with a sign. Zero may be negative. -/
structure Parts where
  negative : Bool
  mantissa : Nat
  exponent : Int

/-- The parts of a finite number; infinities and NaN have none. -/
def parts? (x : Float) : Option Parts :=
  let bits : Nat := x.toBits.toNat
  let negative := bits / 2 ^ (63 : Nat) == 1
  let field : Nat := bits / 2 ^ (52 : Nat) % 2 ^ (11 : Nat)
  let fraction := bits % 2 ^ (52 : Nat)
  if field = 2047 then none
  else if field = 0 then some ⟨negative, fraction, -1074⟩
  else some ⟨negative, fraction + 2 ^ (52 : Nat), (field : Int) - 1075⟩

namespace Parts

def signed (p : Parts) (n : Nat) : Int :=
  if p.negative then -(n : Int) else n

/-- The integer part of the magnitude. -/
def whole (p : Parts) : Nat :=
  if 0 ≤ p.exponent then p.mantissa * 2 ^ p.exponent.toNat
  else p.mantissa / 2 ^ (-p.exponent).toNat

def isIntegral (p : Parts) : Bool :=
  0 ≤ p.exponent || p.mantissa % 2 ^ (-p.exponent).toNat == 0

/-- The integer next to the number on the side of zero. -/
def truncate (p : Parts) : Int :=
  p.signed p.whole

/-- The nearest integer; a half goes away from zero. -/
def round (p : Parts) : Int :=
  if 0 ≤ p.exponent then p.signed (p.mantissa * 2 ^ p.exponent.toNat)
  else
    let unit := 2 ^ (-p.exponent).toNat
    p.signed ((2 * p.mantissa + unit) / (2 * unit))

end Parts

def isIntegral (x : Float) : Bool :=
  match parts? x with
  | some p => p.isIntegral
  | none => false

def truncate? (x : Float) : Option Int :=
  (parts? x).map Parts.truncate

def round? (x : Float) : Option Int :=
  (parts? x).map Parts.round

def isNegative (x : Float) : Bool :=
  x.toBits.toNat / 2 ^ (63 : Nat) == 1

/-- The double with the given parts, for a mantissa up to `2 ^ 53` and an exponent from -1074 to 971. -/
def ofParts (p : Parts) : Float :=
  let sign := if p.negative then 2 ^ (63 : Nat) else 0
  if p.mantissa = 0 then Float.ofBits (UInt64.ofNat sign)
  else
    let shift := min (52 - p.mantissa.log2) (p.exponent + 1074).toNat
    let m := p.mantissa * 2 ^ shift
    let e := p.exponent - shift
    if m < 2 ^ (52 : Nat) then Float.ofBits (UInt64.ofNat (sign + m))
    else Float.ofBits (UInt64.ofNat (sign + (e + 1075).toNat * 2 ^ (52 : Nat) + (m - 2 ^ (52 : Nat))))

def nan : Float := 0.0 / 0.0

def infinity : Float := 1.0 / 0.0

/-- The quotient rounded to the nearest whole number; a half goes to the even one. -/
def quotientToEven (num den : Nat) : Nat :=
  let q := num / den
  let r := num % den
  if den < 2 * r || den == 2 * r && q % 2 == 1 then q + 1 else q

/-- Numerator and denominator of `num / den / 2 ^ e`. -/
def scaledDown (num den : Nat) (e : Int) : Nat × Nat :=
  if 0 ≤ e then (num, den * 2 ^ e.toNat) else (num * 2 ^ (-e).toNat, den)

/-- The exponent of the double nearest to a positive fraction: the quotient has 53 bits, or fewer where
the exponent is already the smallest one. -/
def exponentOf (num den : Nat) : Int :=
  let e := max ((num.log2 : Int) - den.log2 - 53) (-1074)
  let (n, d) := scaledDown num den e
  if 2 ^ (53 : Nat) * d ≤ n then e + 1 else e

/-- The double nearest to the positive fraction `num / den`, a tie going to the even mantissa. -/
def ofRatio (num den : Nat) : Float :=
  let e := exponentOf num den
  let (n, d) := scaledDown num den e
  if 971 < e then infinity else ofParts ⟨false, quotientToEven n d, e⟩

/-- The remainder of `x` by `y` with the sign of `x`, without any rounding. -/
def remainder (x y : Float) : Float :=
  match parts? x, parts? y with
  | some p, some q =>
    if q.mantissa = 0 then nan
    else
      let e := min p.exponent q.exponent
      let a := p.mantissa * 2 ^ (p.exponent - e).toNat
      let b := q.mantissa * 2 ^ (q.exponent - e).toNat
      ofParts ⟨p.negative, a % b, e⟩
  | some _, none => if y.isNaN then nan else x
  | none, _ => nan

end XPath.Decimal
