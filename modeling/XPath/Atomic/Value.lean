import XPath.Calendar.Time
import XPath.Decimal.Format
import XPath.Duration
import XPath.Name

/-!
# Atomic values

Thirteen types of atomic value. Integers are 64 bits wide; decimals and doubles are both kept as
doubles and differ in their text and in their arithmetic. Durations are months or seconds.

`AtomicValue.text` is the canonical text of a value, and `ResultType` the coarse category that static
typing works with.
-/

namespace XPath

open Calendar

/-- Static categories of results. -/
inductive ResultType where
  | number
  | boolean
  | atomic
  | nodeSet
  | dateTime
  | date
  | time
  | duration
  | any
deriving DecidableEq

def ResultType.text : ResultType → String
  | number => "Number"
  | boolean => "Boolean"
  | atomic => "Atomic"
  | nodeSet => "NodeSet"
  | dateTime => "DateTime"
  | date => "Date"
  | time => "Time"
  | duration => "Duration"
  | any => "Any"

inductive AtomicType where
  | boolean
  | string
  | untypedAtomic
  | anyURI
  | qname
  | integer
  | decimal
  | double
  | dateTime
  | date
  | time
  | yearMonthDuration
  | dayTimeDuration
deriving DecidableEq

namespace AtomicType

/-- The name of the type in messages. -/
def text : AtomicType → String
  | boolean => "xs:boolean"
  | string => "xs:string"
  | untypedAtomic => "xs:untypedAtomic"
  | anyURI => "xs:anyURI"
  | qname => "xs:QName"
  | integer => "xs:integer"
  | decimal => "xs:decimal"
  | double => "xs:double"
  | dateTime => "xs:dateTime"
  | date => "xs:date"
  | time => "xs:time"
  | yearMonthDuration => "xs:yearMonthDuration"
  | dayTimeDuration => "xs:dayTimeDuration"

def isNumeric : AtomicType → Bool
  | integer | decimal | double => true
  | _ => false

def isDuration : AtomicType → Bool
  | yearMonthDuration | dayTimeDuration => true
  | _ => false

def resultType : AtomicType → ResultType
  | integer | decimal | double => .number
  | boolean => .boolean
  | dateTime => .dateTime
  | date => .date
  | time => .time
  | yearMonthDuration | dayTimeDuration => .duration
  | _ => .atomic

end AtomicType

inductive AtomicValue where
  | boolean (b : Bool)
  | string (s : String)
  | untypedAtomic (s : String)
  | anyURI (s : String)
  | qname (q : QName)
  | integer (i : Int64)
  | decimal (x : Float)
  | double (x : Float)
  | dateTime (t : DateTime)
  | date (d : Date) (zone : Option Offset)
  | time (t : Time) (zone : Option Offset)
  | yearMonthDuration (months : Int32)
  | dayTimeDuration (seconds : Int64)

namespace AtomicValue

def type : AtomicValue → AtomicType
  | boolean _ => .boolean
  | string _ => .string
  | untypedAtomic _ => .untypedAtomic
  | anyURI _ => .anyURI
  | qname _ => .qname
  | integer _ => .integer
  | decimal _ => .decimal
  | double _ => .double
  | dateTime _ => .dateTime
  | date _ _ => .date
  | time _ _ => .time
  | yearMonthDuration _ => .yearMonthDuration
  | dayTimeDuration _ => .dayTimeDuration

def isNumeric (a : AtomicValue) : Bool :=
  a.type.isNumeric

def isDuration (a : AtomicValue) : Bool :=
  a.type.isDuration

def resultType (a : AtomicValue) : ResultType :=
  a.type.resultType

def typeName (a : AtomicValue) : String :=
  a.type.text

/-- Canonical text of the value. -/
def text : AtomicValue → String
  | boolean b => if b then "true" else "false"
  | string s | untypedAtomic s | anyURI s => s
  | qname q => q.text
  | integer i => Text.intText i.toInt
  | decimal x => Decimal.decimalText x
  | double x => Decimal.doubleText x
  | dateTime t => String.ofList t.text
  | date d zone => String.ofList (d.text ++ Offset.zoneText zone)
  | time t zone => String.ofList (t.text ++ Offset.zoneText zone)
  | yearMonthDuration m => String.ofList (Duration.yearMonthText m)
  | dayTimeDuration s => String.ofList (Duration.dayTimeText s)

/-- Same type and equal content: doubles as numbers, date-times by their moment. -/
def same : AtomicValue → AtomicValue → Bool
  | boolean a, boolean b => a == b
  | string a, string b => a == b
  | untypedAtomic a, untypedAtomic b => a == b
  | anyURI a, anyURI b => a == b
  | qname a, qname b => a == b
  | integer a, integer b => a == b
  | decimal a, decimal b => a == b
  | double a, double b => a == b
  | dateTime a, dateTime b => a.utc == b.utc
  | date a z, date b w => a == b && z == w
  | time a z, time b w => a == b && z == w
  | yearMonthDuration a, yearMonthDuration b => a == b
  | dayTimeDuration a, dayTimeDuration b => a == b
  | _, _ => false

end AtomicValue

end XPath
