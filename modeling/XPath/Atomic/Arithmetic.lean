import XPath.Atomic.Compare

/-!
# Arithmetic

Integers are exact and fail outside 64 bits; dividing two of them gives a decimal. A decimal result
must be finite, a double may be anything. Dates, times and durations combine as the table in
`arithmetic` says.
-/

namespace XPath

open Power

open Calendar

def divisionByZero (op : ArithOp) : Error :=
  .format .FOAR0001 [op.text]

def overflow (op : ArithOp) : Error :=
  .format .FOAR0002 [op.text]

/-- The value, or overflow of the operator where there is none. -/
def orOverflow {α : Type} (op : ArithOp) : Option α → Except Error α
  | some a => .ok a
  | none => .error (overflow op)

def checkedInt64 (op : ArithOp) (i : Int) : Except Error Int64 :=
  orOverflow op (Text.toInt64? i)

def checkedInt32 (op : ArithOp) (i : Int) : Except Error Int32 :=
  orOverflow op (Text.toInt32? i)

/-- Arithmetic on integers. The remainder of the smallest integer by -1 counts as an overflow, like
the quotient. -/
def integerArith (op : ArithOp) (x y : Int64) : Except Error AtomicValue :=
  match op with
  | .add => .integer <$> checkedInt64 op (x.toInt + y.toInt)
  | .sub => .integer <$> checkedInt64 op (x.toInt - y.toInt)
  | .mul => .integer <$> checkedInt64 op (x.toInt * y.toInt)
  | .div =>
    if y = 0 then .error (divisionByZero op)
    else .ok (.decimal (Float.ofInt x.toInt / Float.ofInt y.toInt))
  | .idiv =>
    if y = 0 then .error (divisionByZero op)
    else .integer <$> checkedInt64 op (x.toInt.tdiv y.toInt)
  | .mod =>
    if y = 0 then .error (divisionByZero op)
    else do
      let _ ← checkedInt64 op (x.toInt.tdiv y.toInt)
      .integer <$> checkedInt64 op (x.toInt.tmod y.toInt)

def floatResult (op : ArithOp) (x y : Float) : Float :=
  match op with
  | .add => x + y
  | .sub => x - y
  | .mul => x * y
  | .div => x / y
  | _ => Decimal.remainder x y

/-- An integer of at most 63 bits of magnitude. -/
def checkedMagnitude (op : ArithOp) (i : Option Int) : Except Error Int64 := do
  let i ← orOverflow op i
  if i.natAbs < 2 ^ (63 : Nat) then .ok (Int64.ofInt i) else .error (overflow op)

/-- Arithmetic in doubles; the result is a double if one operand is, else a decimal. -/
def floatArith (op : ArithOp) (x y : Float) (double : Bool) : Except Error AtomicValue :=
  if op = .idiv then
    if y == 0.0 then .error (divisionByZero op)
    else .integer <$> checkedMagnitude op (Decimal.truncate? (x / y))
  else if !double && y == 0.0 && (op == .div || op == .mod) then .error (divisionByZero op)
  else
    let v := floatResult op x y
    if double then .ok (.double v)
    else if v.isFinite then .ok (.decimal v)
    else .error (overflow op)

/-- Arithmetic on two numbers. -/
def numericArith (op : ArithOp) (a b : AtomicValue) : Except Error AtomicValue :=
  match a, b with
  | .integer x, .integer y => integerArith op x y
  | _, _ => floatArith op a.toDouble b.toDouble (a.type = .double || b.type = .double)

/-- The number a duration is multiplied by. -/
def scaleFactor (op : ArithOp) (n : AtomicValue) : Except Error Float :=
  let v := n.toDouble
  if v.isNaN then .error (overflow op)
  else if op = .div then
    if v == 0.0 then .error (divisionByZero op) else .ok (1.0 / v)
  else .ok v

/-- A count multiplied by a factor and rounded, a half away from zero. -/
def scaled (op : ArithOp) (n : Int) (factor : Float) : Except Error Int64 :=
  checkedMagnitude op (Decimal.round? (Float.ofInt n * factor))

/-- A number of seconds that can be added to a date or time. -/
def elapsed (op : ArithOp) (s : Int64) : Except Error Int :=
  if s.toInt.natAbs ≤ 9223372036854775 then .ok (if op = .sub then -s.toInt else s.toInt)
  else .error (overflow op)

/-- A number of months that can be added to a date. -/
def monthsBy (op : ArithOp) (m : Int32) : Int :=
  if op = .sub then -m.toInt else m.toInt

/-- The months of two durations, added or subtracted. -/
def addedOrSubtracted (op : ArithOp) (x y : Int) : Int :=
  if op = .sub then x - y else x + y

def undefinedOperator (op : ArithOp) (a b : AtomicValue) : Error :=
  .format .XPTY0004
    ["operator " ++ op.text ++ " is not defined for " ++ a.typeName ++ " and " ++ b.typeName]

/-- Adds a duration to a date or time, or subtracts it. -/
def shiftBy (op : ArithOp) (a b : AtomicValue) : Except Error AtomicValue :=
  match a, b with
  | .dateTime t, .dayTimeDuration s => do
    .dateTime <$> orOverflow op (t.addSeconds? (← elapsed op s))
  | .date d zone, .dayTimeDuration s => do
    let m ← orOverflow op (Moment.addSeconds? ⟨d, .midnight⟩ (← elapsed op s))
    return .date m.date zone
  | .time t zone, .dayTimeDuration s => do
    return .time (t.add (← elapsed op s)).1 zone
  | .dateTime t, .yearMonthDuration m =>
    .dateTime <$> orOverflow op (t.addMonths? (monthsBy op m))
  | .date d zone, .yearMonthDuration m =>
    (.date · zone) <$> orOverflow op (d.addMonths? (monthsBy op m))
  | _, _ => .error (undefinedOperator op a b)

/-- The seconds from one moment to another; both must be in range. -/
def difference (x y : Option DateTime) : Except Error AtomicValue := do
  let x ← orOverflow .sub x
  let y ← orOverflow .sub y
  return .dayTimeDuration (Int64.ofInt (x.utc.secondsSince y.utc))

/-- Multiplies or divides a duration by a number. -/
def scaleBy (op : ArithOp) (d n : AtomicValue) : Except Error AtomicValue :=
  match d with
  | .yearMonthDuration m => do
    let r ← scaled op m.toInt (← scaleFactor op n)
    .yearMonthDuration <$> checkedInt32 op r.toInt
  | .dayTimeDuration s => do
    .dayTimeDuration <$> scaled op s.toInt (← scaleFactor op n)
  | _ => .error (undefinedOperator op d n)

/-- The quotient of two durations of one kind. -/
def quotient (op : ArithOp) (x y : Int) : Except Error AtomicValue :=
  if y = 0 then .error (divisionByZero op)
  else .ok (.decimal (Float.ofInt x / Float.ofInt y))

/-- Binary arithmetic. Untyped operands have been cast to doubles before. -/
def arithmetic (op : ArithOp) (a b : AtomicValue) : Except Error AtomicValue :=
  if a.isNumeric && b.isNumeric then numericArith op a b
  else
    match op, a, b with
    | .add, .dayTimeDuration x, .dayTimeDuration y
    | .sub, .dayTimeDuration x, .dayTimeDuration y =>
      .dayTimeDuration <$> checkedInt64 op (addedOrSubtracted op x.toInt y.toInt)
    | .add, .yearMonthDuration x, .yearMonthDuration y
    | .sub, .yearMonthDuration x, .yearMonthDuration y =>
      .yearMonthDuration <$> checkedInt32 op (addedOrSubtracted op x.toInt y.toInt)
    | .div, .yearMonthDuration x, .yearMonthDuration y => quotient op x.toInt y.toInt
    | .div, .dayTimeDuration x, .dayTimeDuration y => quotient op x.toInt y.toInt
    | .sub, .dateTime x, .dateTime y => difference (some x) (some y)
    | .sub, .date d z, .date e w => difference (dateInstant d z) (dateInstant e w)
    | .sub, .time t z, .time u w => difference (timeInstant t z) (timeInstant u w)
    | .add, _, _ =>
      if a.isDuration && !b.isDuration then
        match b with
        | .dateTime _ | .date _ _ => shiftBy op b a
        | .time _ _ =>
          if a.type = .dayTimeDuration then shiftBy op b a
          else .error (undefinedOperator op a b)
        | _ => .error (undefinedOperator op a b)
      else shiftBy op a b
    | .sub, _, _ => shiftBy op a b
    | .mul, _, _ =>
      if a.isDuration && b.isNumeric then scaleBy op a b
      else if a.isNumeric && b.isDuration then scaleBy op b a
      else .error (undefinedOperator op a b)
    | .div, _, _ =>
      if a.isDuration && b.isNumeric then scaleBy op a b
      else .error (undefinedOperator op a b)
    | _, _, _ => .error (undefinedOperator op a b)

/-- Unary minus. -/
def negate : AtomicValue → Except Error AtomicValue
  | .integer i => .integer <$> checkedInt64 .sub (-i.toInt)
  | .decimal x => .ok (.decimal (-x))
  | .double x => .ok (.double (-x))
  | .yearMonthDuration m => .yearMonthDuration <$> checkedInt32 .sub (-m.toInt)
  | .dayTimeDuration s => .dayTimeDuration <$> checkedInt64 .sub (-s.toInt)
  | a => .error (.format .XPTY0004 ["unary minus is not defined for " ++ a.typeName])

end XPath
