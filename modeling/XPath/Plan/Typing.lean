import XPath.Plan.Program

/-!
# Static types

`returnType` is the category of what an expression delivers, `itemType` that of each of its items.
Both look down the expression; no expression is deeper than it has nodes.
-/

namespace XPath

/-- The category of the result of an arithmetic operator. -/
def arithmeticType (op : ArithOp) (l r : ResultType) : ResultType :=
  match op, l, r with
  | _, .number, .number => .number
  | .add, .dateTime, .duration | .add, .duration, .dateTime => .dateTime
  | .add, .date, .duration | .add, .duration, .date => .date
  | .add, .time, .duration | .add, .duration, .time => .time
  | .add, .duration, .duration => .duration
  | .sub, .dateTime, .dateTime | .sub, .date, .date | .sub, .time, .time => .duration
  | .sub, .dateTime, .duration => .dateTime
  | .sub, .date, .duration => .date
  | .sub, .time, .duration => .time
  | .sub, .duration, .duration => .duration
  | .mul, .duration, .number | .mul, .number, .duration => .duration
  | .div, .duration, .number => .duration
  | .div, .duration, .duration => .number
  | _, _, _ => .any

/-- The one category that all of the list share. -/
def commonType : List ResultType → ResultType
  | [] => .any
  | t :: ts => if ts.all (· = t) then t else .any

def negatedType : ResultType → ResultType
  | .number => .number
  | .duration => .duration
  | _ => .any

namespace Program

/-- The category of a node whose children have the given ones. -/
def typeFromChildren (form : Form) (types : List ResultType) : ResultType :=
  match form with
  | .literal a => a.resultType
  | .contextItem => .any
  | .root | .union => .nodeSet
  | .variable _ binding => binding.elim .any (·.itemType)
  | .call _ function => function.elim .any (·.returnType)
  | .path p => if yieldsNodes p.steps then .nodeSet else .any
  | .filter _ => types.head?.getD .any
  | .arithmetic op =>
    match types with
    | [l, r] => arithmeticType op l r
    | _ => .any
  | .negate => types.head?.elim .any negatedType
  | .and | .or | .compare _ _ | .quantified _ _ _ => .boolean
  | .ifThenElse =>
    match types with
    | [_, t, e] => if t = e then t else .any
    | _ => .any
  | .forEach _ _ => .any
  | .sequence => commonType types
  | .range => .number

def returnTypeFrom (p : Program) : Nat → ExprId → ResultType
  | 0, _ => .any
  | fuel + 1, e =>
    match p.form? e with
    | some form => typeFromChildren form ((p.children e).map (returnTypeFrom p fuel))
    | none => .any

/-- The category of what an expression delivers. -/
def returnType (p : Program) (e : ExprId) : ResultType :=
  p.returnTypeFrom p.size e

def itemTypeFrom (p : Program) : Nat → ExprId → ResultType
  | 0, _ => .any
  | fuel + 1, e =>
    match p.form? e with
    | some (.forEach _ _) => ((p.children e)[1]?).elim .any (itemTypeFrom p fuel)
    | some (.filter _) => (p.children e).head?.elim .any (itemTypeFrom p fuel)
    | some .sequence => commonType ((p.children e).map (itemTypeFrom p fuel))
    | _ => p.returnType e

/-- The category of each item that an expression delivers. -/
def itemType (p : Program) (e : ExprId) : ResultType :=
  p.itemTypeFrom p.size e

end Program

end XPath
