import XPath.Atomic.Value
import XPath.Calendar.Read
import XPath.Error

/-!
# Reading untyped text

Untyped text takes on the type of the value it meets. Blanks around it do not count, except for
strings. Against any number it is read as a double.
-/

namespace XPath

namespace AtomicValue

def ofBool? (s : String) : Option Bool :=
  if s = "true" || s = "1" then some true
  else if s = "false" || s = "0" then some false
  else none

/-- The value of a type that a text denotes, if it has one. -/
def ofText? (t : AtomicType) (s : String) : Option AtomicValue :=
  let cs := Text.trimChars s.toList
  match t with
  | .integer | .decimal | .double => (Decimal.readDouble? s).map double
  | .boolean => (ofBool? (Text.trim s)).map boolean
  | .string => some (string s)
  | .untypedAtomic => some (untypedAtomic s)
  | .anyURI => some (anyURI (Text.trim s))
  | .dateTime => (Calendar.readDateTime? cs).map dateTime
  | .date => (Calendar.readDate? cs).map fun (d, zone) => date d zone
  | .time => (Calendar.readTime? cs).map fun (t, zone) => time t zone
  | .yearMonthDuration =>
    match Duration.read? s with
    | some (m, s) => if s = 0 then some (yearMonthDuration m) else none
    | none => none
  | .dayTimeDuration =>
    match Duration.read? s with
    | some (m, s) => if m = 0 then some (dayTimeDuration s) else none
    | none => none
  | .qname => none

end AtomicValue

/-- Casts untyped text to a type. -/
def castUntyped (s : String) (t : AtomicType) : Except Error AtomicValue :=
  match AtomicValue.ofText? t s with
  | some a => .ok a
  | none => .error (.format .FORG0001 [s, t.text])

namespace AtomicValue

/-- The value as a double; NaN when it has no numeric reading. -/
def toDouble : AtomicValue → Float
  | integer i => Float.ofInt i.toInt
  | decimal x | double x => x
  | boolean b => if b then 1.0 else 0.0
  | string s | untypedAtomic s => (Decimal.readDouble? s).getD Decimal.nan
  | _ => Decimal.nan

end AtomicValue

end XPath
