import XPath.Atomic.Cast
import XPath.Operator

/-!
# Comparing atomic values

Two values are either ordered, with NaN unordered, or only equal or different, or not comparable at
all. Dates and times are compared as moments, times on one fixed day; without a zone they count as
UTC. The two kinds of duration are comparable for equality only, and are equal when both are zero.
-/

namespace XPath

open Calendar

/-- The moment at which a date begins. -/
def dateInstant (d : Date) (zone : Option Offset) : Option DateTime :=
  DateTime.ofClock? ⟨d, .midnight⟩ (zone.getD .utc)

/-- The moment of a time on the last day of 1972. -/
def timeInstant (t : Time) (zone : Option Offset) : Option DateTime :=
  DateTime.ofClock? ⟨⟨dayNumber ⟨1972, 12, 31⟩⟩, t⟩ (zone.getD .utc)

/-- Orders moments; one out of range comes before all others. -/
def compareInstants : Option DateTime → Option DateTime → Ordering
  | none, none => .eq
  | none, some _ => .lt
  | some _, none => .gt
  | some a, some b => a.utc.compare b.utc

inductive Relation where
  | ordered (o : Option Ordering)
  | equality (same : Bool)

def compareFloats (x y : Float) : Option Ordering :=
  if x < y then some .lt else if x == y then some .eq else if y < x then some .gt else none

namespace AtomicValue

/-- The text of a value that is compared as a string. -/
def stringLike? : AtomicValue → Option String
  | string s | untypedAtomic s | anyURI s => some s
  | _ => none

def relate (a b : AtomicValue) : Except Error Relation :=
  match a, b with
  | integer x, integer y => .ok (.ordered (some (compare x.toInt y.toInt)))
  | boolean x, boolean y => .ok (.ordered (some (compare x.toNat y.toNat)))
  | dateTime x, dateTime y => .ok (.ordered (some (x.utc.compare y.utc)))
  | date d z, date e w =>
    .ok (.ordered (some (compareInstants (dateInstant d z) (dateInstant e w))))
  | time t z, time u w =>
    .ok (.ordered (some (compareInstants (timeInstant t z) (timeInstant u w))))
  | yearMonthDuration m, yearMonthDuration n =>
    .ok (.ordered (some (compare m.toInt n.toInt)))
  | dayTimeDuration s, dayTimeDuration t => .ok (.ordered (some (compare s.toInt t.toInt)))
  | yearMonthDuration m, dayTimeDuration s => .ok (.equality (m == 0 && s == 0))
  | dayTimeDuration s, yearMonthDuration m => .ok (.equality (m == 0 && s == 0))
  | qname p, qname q => .ok (.equality (p.uri == q.uri && p.localName == q.localName))
  | a, b =>
    if a.isNumeric && b.isNumeric then .ok (.ordered (compareFloats a.toDouble b.toDouble))
    else
      match a.stringLike?, b.stringLike? with
      | some s, some t => .ok (.ordered (some (compare s t)))
      | _, _ =>
        .error (.format .XPTY0004 ["cannot compare " ++ a.typeName ++ " with " ++ b.typeName])

end AtomicValue

/-- Whether an operator holds of an order. -/
def CompOp.holds : CompOp → Ordering → Bool
  | eq, o => o.isEq
  | ne, o => !o.isEq
  | lt, o => o.isLT
  | le, o => o.isLE
  | gt, o => o.isGT
  | ge, o => o.isGE

def Relation.test (op : CompOp) : Relation → Except Error Bool
  | ordered (some o) => .ok (op.holds o)
  | ordered none => .ok (op == .ne)
  | equality same =>
    match op with
    | .eq => .ok same
    | .ne => .ok !same
    | _ => .error
      (.format .XPTY0004 ["operator " ++ op.text ++ " is not defined for these operands"])

/-- Value comparison. Untyped operands are compared as strings. -/
def valueCompare (op : CompOp) (a b : AtomicValue) : Except Error Bool := do
  (← a.relate b).test op

/-- One pair of a general comparison. An untyped operand takes on the type of the other. -/
def generalCompare (op : CompOp) (a b : AtomicValue) : Except Error Bool :=
  match a, b with
  | .untypedAtomic _, .untypedAtomic _ => valueCompare op a b
  | .untypedAtomic s, b => do valueCompare op (← castUntyped s b.type) b
  | a, .untypedAtomic s => do valueCompare op a (← castUntyped s a.type)
  | a, b => valueCompare op a b

end XPath
