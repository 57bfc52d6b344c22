import XPath.Decimal.Binary

/-!
# The fewest digits that read back

A decimal numeral reads back as a double when it lies in the interval of reals that round to that
double: from half way to the neighbour below to half way to the neighbour above, ends included iff
the mantissa is even. For one, two, … seventeen digits the two neighbours of the number on that
decimal grid are tried, in whole numbers; the first grid with a hit wins. Of two hits the nearer is
taken, and the upper one when both are equally near.
-/

namespace XPath.Decimal

open Power

/-- A fraction `num / den` of natural numbers. -/
structure Ratio where
  num : Nat
  den : Nat

namespace Ratio

def scaleByTwo (m : Nat) (e : Int) : Ratio :=
  if 0 ≤ e then ⟨m * 2 ^ e.toNat, 1⟩ else ⟨m, 2 ^ (-e).toNat⟩

/-- The number `d * 10 ^ g`. -/
def scaleByTen (d : Nat) (g : Int) : Ratio :=
  if 0 ≤ g then ⟨d * 10 ^ g.toNat, 1⟩ else ⟨d, 10 ^ (-g).toNat⟩

def le (a b : Ratio) : Bool :=
  a.num * b.den ≤ b.num * a.den

def lt (a b : Ratio) : Bool :=
  a.num * b.den < b.num * a.den

/-- How many whole steps of `10 ^ g` fit into the number. -/
def stepsOfTen (a : Ratio) (g : Int) : Nat :=
  if 0 ≤ g then a.num / (a.den * 10 ^ g.toNat) else a.num * 10 ^ (-g).toNat / a.den

end Ratio

/-- The reals that round to one double. -/
structure Interval where
  low : Ratio
  high : Ratio
  closed : Bool

def Interval.contains (i : Interval) (r : Ratio) : Bool :=
  if i.closed then i.low.le r && r.le i.high else i.low.lt r && r.lt i.high

/-- The interval of the positive number `m * 2 ^ e`. The gap below a power of two is half as wide. -/
def intervalOf (m : Nat) (e : Int) : Interval :=
  let below := if m = 2 ^ (52 : Nat) ∧ -1074 < e then 4 * m - 1 else 4 * m - 2
  ⟨.scaleByTwo below (e - 2), .scaleByTwo (4 * m + 2) (e - 2), m % 2 = 0⟩

/-- The least `j ≤ bound` with `1 ≤ v * 10 ^ j`. -/
def leadingZeros (v : Ratio) : Nat → Nat → Nat
  | 0, j => j
  | n + 1, j => if v.den ≤ v.num * 10 ^ j then j else leadingZeros v n (j + 1)

/-- The power of ten just above the number: `10 ^ (k - 1) ≤ v < 10 ^ k`. -/
def decimalExponent (v : Ratio) : Int :=
  let whole := v.num / v.den
  if 0 < whole then (Nat.toDigits 10 whole).length else 1 - (leadingZeros v 400 0 : Int)

/-- The numeral `digits * 10 ^ exponent`. -/
structure Numeral where
  digits : Nat
  exponent : Int

/-- The number's hit on the grid of `10 ^ g`, if one of its two neighbours there reads back. -/
def hitOnGrid (v : Ratio) (i : Interval) (g : Int) : Option Numeral :=
  let d := v.stepsOfTen g
  let lower := i.contains (.scaleByTen d g) && d != 0
  let upper := i.contains (.scaleByTen (d + 1) g)
  if lower && upper then
    -- nearer of the two: compare twice the number with the sum of its neighbours
    let middle := Ratio.scaleByTen (2 * d + 1) g
    if Ratio.lt ⟨2 * v.num, v.den⟩ middle then some ⟨d, g⟩ else some ⟨d + 1, g⟩
  else if lower then some ⟨d, g⟩
  else if upper then some ⟨d + 1, g⟩
  else none

/-- Tries grids with more and more digits, at most `n` of them. -/
def searchGrids (v : Ratio) (i : Interval) : Nat → Int → Numeral
  | 0, g => ⟨v.stepsOfTen g, g⟩
  | n + 1, g => (hitOnGrid v i g).getD (searchGrids v i n (g - 1))

/-- Moves a last digit zero into the exponent. Only the first grid can bring one, where the neighbour
above is the next power of ten. -/
def Numeral.reduced (n : Numeral) : Numeral :=
  if n.digits % 10 = 0 ∧ n.digits ≠ 0 then ⟨n.digits / 10, n.exponent + 1⟩ else n

/-- The shortest numeral of the positive number `m * 2 ^ e`. -/
def shortest (m : Nat) (e : Int) : Numeral :=
  let v := Ratio.scaleByTwo m e
  (searchGrids v (intervalOf m e) 17 (decimalExponent v - 1)).reduced

end XPath.Decimal
