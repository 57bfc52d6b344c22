import XPath.Decimal.Read

/-!
# Durations

A duration is a number of months or a number of seconds. Its text is `P`, then years and months, or
days followed by `T` with hours, minutes and seconds; fields that are zero are left out, and a
negative duration has a minus in front.

Reading goes over the part before the first `T` and the part after it with one accumulator for
digits. Digits that the first part leaves over run on into the second. Fractions of a second are cut.
-/

namespace XPath.Duration

open Power XPath.Text

def field (n : Nat) (unit : Char) : List Char :=
  if n = 0 then [] else natDigits n ++ [unit]

def signText (i : Int) : List Char :=
  if i < 0 then ['-'] else []

def yearMonthText (months : Int32) : List Char :=
  let n := months.toInt.natAbs
  if n = 0 then ['P', '0', 'M']
  else signText months.toInt ++ 'P' :: field (n / 12) 'Y' ++ field (n % 12) 'M'

def dayTimeText (seconds : Int64) : List Char :=
  let n := seconds.toInt.natAbs
  let clock := n % 86400
  if n = 0 then ['P', 'T', '0', 'S']
  else
    signText seconds.toInt ++ 'P' :: field (n / 86400) 'D' ++
      if clock = 0 then []
      else
        'T' :: field (clock / 3600) 'H' ++ field (clock / 60 % 60) 'M' ++ field (clock % 60) 'S'

/-- What has been read: the pending digits, latest first, and the totals. -/
structure Scan where
  pending : List Char
  anyField : Bool
  months : Nat
  seconds : Nat

namespace Scan

def start : Scan := ⟨[], false, 0, 0⟩

def push (s : Scan) (c : Char) : Scan :=
  { s with pending := c :: s.pending }

/-- The pending digits as a whole number. -/
def count? (s : Scan) : Option Nat :=
  readNat? s.pending.reverse

/-- The pending digits as a number of seconds, with its fraction cut off. -/
def wholeSeconds? (s : Scan) : Option Nat := do
  let x ← Decimal.readNumber? s.pending.reverse
  let i ← Decimal.truncate? x
  if i < 2 ^ (63 : Nat) then some i.toNat else none

def addMonths (s : Scan) (n : Nat) : Scan :=
  { s with pending := [], anyField := true, months := s.months + n }

def addSeconds (s : Scan) (n : Nat) : Scan :=
  { s with pending := [], anyField := true, seconds := s.seconds + n }

/-- One character of the part before `T`. -/
def dateChar (s : Scan) (c : Char) : Option Scan :=
  if isDigit c then some (s.push c)
  else match c with
    | 'Y' => s.count?.map fun n => s.addMonths (12 * n)
    | 'M' => s.count?.map s.addMonths
    | 'D' => s.count?.map fun n => s.addSeconds (86400 * n)
    | _ => none

/-- One character of the part after `T`. -/
def timeChar (s : Scan) (c : Char) : Option Scan :=
  if isDigit c || c = '.' then some (s.push c)
  else match c with
    | 'H' => s.count?.map fun n => s.addSeconds (3600 * n)
    | 'M' => s.count?.map fun n => s.addSeconds (60 * n)
    | 'S' => s.wholeSeconds?.map s.addSeconds
    | _ => none

end Scan

/-- The parts before and after the first `T`. A `T` with nothing after it is refused. -/
def splitAtT? (cs : List Char) : Option (List Char × List Char) :=
  match cs.dropWhile (· != 'T') with
  | [] => some (cs, [])
  | [_] => none
  | _ :: rest => some (cs.takeWhile (· != 'T'), rest)

/-- Months and seconds of a duration without its sign. -/
def readMagnitude? (cs : List Char) : Option (Int32 × Int64) := do
  let (date, time) ← splitAtT? cs
  let s ← date.foldlM Scan.dateChar Scan.start
  let s ← time.foldlM Scan.timeChar s
  if s.anyField && s.pending.isEmpty then
    let months ← toInt32? s.months
    let seconds ← toInt64? s.seconds
    some (months, seconds)
  else none

/-- Reads a duration as months and seconds. -/
def read? (s : String) : Option (Int32 × Int64) :=
  match trimChars s.toList with
  | '-' :: 'P' :: cs => (readMagnitude? cs).map fun (m, s) => (-m, -s)
  | 'P' :: cs => readMagnitude? cs
  | _ => none

end XPath.Duration
