import XPath.Calendar.Date

/-!
# Times of day, offsets and moments

A time of day counts seconds and nanoseconds. In a leap second the nanoseconds run on from 10^9, and
the second is shown as 60. An offset from UTC is less than a day in either direction. A date-time
keeps its moment in UTC together with the offset it was written with; only the moment decides
equality and order.
-/

namespace XPath.Calendar

open XPath.Text

def secondsPerDay : Nat := 86400

def nanosPerSecond : Nat := 1000000000

structure Time where
  seconds : Nat
  nanos : Nat
deriving DecidableEq

namespace Time

def midnight : Time := ⟨0, 0⟩

def isLeap (t : Time) : Bool :=
  nanosPerSecond ≤ t.nanos

def ofClock? (hour minute second nanos : Nat) : Option Time :=
  if hour < 24 ∧ minute < 60 ∧ second < 60 ∧ nanos < 2 * nanosPerSecond then
    some ⟨hour * 3600 + minute * 60 + second, nanos⟩
  else none

def text (t : Time) : List Char :=
  padded 2 (t.seconds / 3600) ++ ':' :: padded 2 (t.seconds / 60 % 60) ++
    ':' :: padded 2 (t.seconds % 60 + t.nanos / nanosPerSecond)

/-- Moves the clock by whole seconds, without regard to leap seconds, and counts the days passed. -/
def turn (t : Time) (s : Int) : Time × Int :=
  let total := (t.seconds : Int) + s
  (⟨(total % secondsPerDay).toNat, t.nanos⟩, total / secondsPerDay)

/-- Adds elapsed seconds. Leaving a leap second forwards ends it at the second's end, leaving it
backwards counts it as a second of its own. -/
def add (t : Time) (s : Int) : Time × Int :=
  if t.isLeap then
    if s = 0 then (t, 0)
    else
      let ordinary : Time := ⟨t.seconds, t.nanos - nanosPerSecond⟩
      if 0 < s then ordinary.turn s else ordinary.turn (s + 1)
  else t.turn s

/-- Nanoseconds from `b` to `a`. A leap second that lies between the two counts. -/
def nanosSince (a b : Time) : Int :=
  let leap : Int :=
    if b.seconds < a.seconds ∧ b.isLeap then 1
    else if a.seconds < b.seconds ∧ a.isLeap then -1
    else 0
  ((a.seconds : Int) - b.seconds + leap) * nanosPerSecond + ((a.nanos : Int) - b.nanos)

end Time

/-- Seconds east of UTC. -/
structure Offset where
  seconds : Int
deriving DecidableEq

namespace Offset

def utc : Offset := ⟨0⟩

def ofSeconds? (s : Int) : Option Offset :=
  if -86400 < s ∧ s < 86400 then some ⟨s⟩ else none

def clockText (o : Offset) (minutes : Nat) : List Char :=
  (if o.seconds < 0 then '-' else '+') :: padded 2 (minutes / 60) ++ ':' :: padded 2 (minutes % 60)

/-- Text of the offset in a date-time: rounded to minutes. -/
def text (o : Offset) : List Char :=
  o.clockText ((o.seconds.natAbs + 30) / 60)

/-- Text of the zone of a date or a time: cut to minutes, `Z` for UTC, nothing without a zone. -/
def zoneText : Option Offset → List Char
  | none => []
  | some o => if o.seconds = 0 then ['Z'] else o.clockText (o.seconds.natAbs / 60)

end Offset

/-- A date with a time of day. -/
structure Moment where
  date : Date
  time : Time
deriving DecidableEq

namespace Moment

def compare (a b : Moment) : Ordering :=
  (Ord.compare a.date.day b.date.day).then
    ((Ord.compare a.time.seconds b.time.seconds).then (Ord.compare a.time.nanos b.time.nanos))

/-- Shifts the clock; the date may leave its range. -/
def shift (m : Moment) (s : Int) : Moment :=
  let (time, days) := m.time.turn s
  ⟨⟨m.date.day + days⟩, time⟩

/-- Adds elapsed seconds, within the range of dates. -/
def addSeconds? (m : Moment) (s : Int) : Option Moment :=
  let (time, days) := m.time.add s
  (m.date.addDays? days).map fun date => ⟨date, time⟩

def nanosSince (a b : Moment) : Int :=
  (a.date.day - b.date.day) * secondsPerDay * nanosPerSecond + a.time.nanosSince b.time

/-- Whole seconds from `b` to `a`, cut toward zero. -/
def secondsSince (a b : Moment) : Int :=
  (a.nanosSince b).tdiv nanosPerSecond

end Moment

structure DateTime where
  utc : Moment
  offset : Offset

namespace DateTime

/-- The date and time shown on a clock at the offset. -/
def clock (t : DateTime) : Moment :=
  t.utc.shift t.offset.seconds

/-- The date-time that shows the given clock at the offset, if its moment is in range. -/
def ofClock? (clock : Moment) (offset : Offset) : Option DateTime :=
  let utc := clock.shift (-offset.seconds)
  if utc.date.inRange then some ⟨utc, offset⟩ else none

def addSeconds? (t : DateTime) (s : Int) : Option DateTime :=
  (t.utc.addSeconds? s).map fun utc => ⟨utc, t.offset⟩

/-- Adds months to the clock's date. -/
def addMonths? (t : DateTime) (n : Int) : Option DateTime := do
  let date ← t.clock.date.addMonths? n
  ofClock? ⟨date, t.clock.time⟩ t.offset

def text (t : DateTime) : List Char :=
  t.clock.date.text ++ 'T' :: t.clock.time.text ++ t.offset.text

end DateTime

end XPath.Calendar
