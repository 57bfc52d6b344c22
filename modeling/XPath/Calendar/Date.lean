import XPath.Text.Numeral

/-!
# Dates

The proleptic Gregorian calendar. A date is the number of its day, day 0 being 1970-01-01; years run
from -262143 to 262142. Year, month and day are computed from the number by counting in cycles of
400 years (146097 days) that start in March, so that the leap day is the last day of a cycle's year.
-/

namespace XPath.Calendar

open XPath.Text

structure Civil where
  year : Int
  month : Nat
  day : Nat
deriving DecidableEq

def isLeapYear (y : Int) : Bool :=
  y % 4 == 0 && (y % 100 != 0 || y % 400 == 0)

def daysInMonth (y : Int) (m : Nat) : Nat :=
  match m with
  | 4 | 6 | 9 | 11 => 30
  | 2 => if isLeapYear y then 29 else 28
  | _ => 31

/-- The number of a day, for a month from 1 to 12. -/
def dayNumber (c : Civil) : Int :=
  let y := if c.month ≤ 2 then c.year - 1 else c.year
  let cycle := y / 400
  let yearOfCycle := y % 400
  let monthFromMarch : Int := if c.month ≤ 2 then c.month + 9 else c.month - 3
  let dayOfYear := (153 * monthFromMarch + 2) / 5 + c.day - 1
  let dayOfCycle := yearOfCycle * 365 + yearOfCycle / 4 - yearOfCycle / 100 + dayOfYear
  cycle * 146097 + dayOfCycle - 719468

/-- Year, month and day of a numbered day. -/
def civilOf (n : Int) : Civil :=
  let z := n + 719468
  let cycle := z / 146097
  let dayOfCycle := z % 146097
  let yearOfCycle :=
    (dayOfCycle - dayOfCycle / 1460 + dayOfCycle / 36524 - dayOfCycle / 146096) / 365
  let dayOfYear := dayOfCycle - (365 * yearOfCycle + yearOfCycle / 4 - yearOfCycle / 100)
  let monthFromMarch := (5 * dayOfYear + 2) / 153
  let day := dayOfYear - (153 * monthFromMarch + 2) / 5 + 1
  let month := if monthFromMarch < 10 then monthFromMarch + 3 else monthFromMarch - 9
  let year := yearOfCycle + cycle * 400 + if month ≤ 2 then 1 else 0
  ⟨year, month.toNat, day.toNat⟩

structure Date where
  day : Int
deriving DecidableEq

namespace Date

def first : Int := dayNumber ⟨-262143, 1, 1⟩

def last : Int := dayNumber ⟨262142, 12, 31⟩

def inRange (d : Date) : Bool :=
  first ≤ d.day && d.day ≤ last

def civil (d : Date) : Civil :=
  civilOf d.day

/-- The date with the given year, month and day, if there is one in range. -/
def ofCivil? (c : Civil) : Option Date :=
  if -262143 ≤ c.year ∧ c.year ≤ 262142 ∧ 1 ≤ c.month ∧ c.month ≤ 12 ∧ 1 ≤ c.day ∧
      c.day ≤ daysInMonth c.year c.month then
    some ⟨dayNumber c⟩
  else none

/-- Adds days, within the range of dates. -/
def addDays? (d : Date) (n : Int) : Option Date :=
  let r : Date := ⟨d.day + n⟩
  if r.inRange then some r else none

/-- Adds months. A day past the end of the month becomes its last day. Nothing changes when no month
is added. -/
def addMonths? (d : Date) (n : Int) : Option Date :=
  if n = 0 then some d
  else
    let c := d.civil
    let months := c.year * 12 + (c.month : Int) - 1 + n
    if (toInt32? n).isNone || n = Int32.minValue.toInt || (toInt32? months).isNone then none
    else
      let year := months / 12
      let month := (months % 12).toNat + 1
      ofCivil? ⟨year, month, min c.day (daysInMonth year month)⟩

/-- Years from 0 to 9999 have four digits; others have a sign and at least four. -/
def yearText (y : Int) : List Char :=
  if 0 ≤ y ∧ y ≤ 9999 then padded 4 y.toNat
  else (if y < 0 then '-' else '+') :: padded 4 y.natAbs

def text (d : Date) : List Char :=
  let c := d.civil
  yearText c.year ++ '-' :: padded 2 c.month ++ '-' :: padded 2 c.day

end Date

end XPath.Calendar
