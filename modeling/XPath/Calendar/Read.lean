import XPath.Calendar.Time
import XPath.Text.Blank

/-!
# Reading dates and times

A reader takes a value from the front of a text and returns the rest. Blanks before a number are
passed over, separators must match exactly, and nothing may remain at the end. The second 60 is read
at any minute, as a leap second.

A zone is a final `Z`, or a sign with hours and minutes in the last six characters of a longer text.
-/

namespace XPath.Calendar

open Power XPath.Text

abbrev Reader (α : Type) := List Char → Option (α × List Char)

namespace Reader

/-- Between one and `most` digits. -/
def digits (most : Nat) : Reader Nat := fun cs =>
  let ds := (cs.takeWhile isDigit).take most
  if ds.isEmpty then none else some (digitsValue ds, cs.drop ds.length)

/-- A number of at most two digits after blanks. -/
def twoDigits : Reader Nat := fun cs =>
  digits 2 (trimStart cs)

/-- A year after blanks: a sign and any number of digits, or at most four digits. -/
def year : Reader Int := fun cs =>
  match trimStart cs with
  | '-' :: rest => (digits rest.length rest).map fun (n, r) => (-(n : Int), r)
  | '+' :: rest => (digits rest.length rest).map fun (n, r) => ((n : Int), r)
  | rest => (digits 4 rest).map fun (n, r) => ((n : Int), r)

def char (c : Char) : Reader Unit
  | d :: cs => if c = d then some ((), cs) else none
  | [] => none

/-- Nanoseconds from the digits after the point; digits past the ninth are passed over. -/
def nanosOf (ds : List Char) : Nat :=
  let kept := ds.take 9
  digitsValue kept * 10 ^ (9 - kept.length)

/-- Nothing, or a point followed by digits. -/
def fraction : Reader Nat
  | '.' :: cs =>
    let ds := cs.takeWhile isDigit
    if ds.isEmpty then none else some (nanosOf ds, cs.drop ds.length)
  | cs => some (0, cs)

def date : Reader Date := fun cs => do
  let (y, cs) ← year cs
  let ((), cs) ← char '-' cs
  let (m, cs) ← twoDigits cs
  let ((), cs) ← char '-' cs
  let (d, cs) ← twoDigits cs
  let date ← Date.ofCivil? ⟨y, m, d⟩
  return (date, cs)

def time : Reader Time := fun cs => do
  let (h, cs) ← twoDigits cs
  let ((), cs) ← char ':' cs
  let (m, cs) ← twoDigits cs
  let ((), cs) ← char ':' cs
  let (s, cs) ← twoDigits cs
  let (n, cs) ← fraction cs
  let time ← if s = 60 then Time.ofClock? h m 59 (n + nanosPerSecond) else Time.ofClock? h m s n
  return (time, cs)

def moment : Reader Moment := fun cs => do
  let (d, cs) ← date cs
  let ((), cs) ← char 'T' cs
  let (t, cs) ← time cs
  return (⟨d, t⟩, cs)

/-- The value of a reader that takes the whole text. -/
def whole {α : Type} (r : Reader α) (cs : List Char) : Option α :=
  match r cs with
  | some (a, []) => some a
  | _ => none

end Reader

/-- The zone at the end of a text and the text before it. A text without a zone stays whole; one
that ends like a zone with an unreadable or too large offset is refused. -/
def splitZone? (cs : List Char) : Option (List Char × Option Offset) :=
  match cs.reverse with
  | 'Z' :: rest => some (rest.reverse, some .utc)
  | m2 :: m1 :: ':' :: h2 :: h1 :: sign :: rest =>
    if (sign = '+' || sign = '-') && !rest.isEmpty then do
      let h ← readInt? [h1, h2]
      let m ← readInt? [m1, m2]
      let s := h * 3600 + m * 60
      let offset ← Offset.ofSeconds? (if sign = '-' then -s else s)
      some (rest.reverse, some offset)
    else some (cs, none)
  | _ => some (cs, none)

def readDate? (cs : List Char) : Option (Date × Option Offset) := do
  let (body, zone) ← splitZone? cs
  let date ← Reader.whole Reader.date body
  return (date, zone)

def readTime? (cs : List Char) : Option (Time × Option Offset) := do
  let (body, zone) ← splitZone? cs
  let time ← Reader.whole Reader.time body
  return (time, zone)

/-- A date-time without a zone is taken as UTC. -/
def readDateTime? (cs : List Char) : Option DateTime := do
  let (body, zone) ← splitZone? cs
  let clock ← Reader.whole Reader.moment body
  DateTime.ofClock? clock (zone.getD .utc)

end XPath.Calendar
