import XPath.Atomic.Compare
import XPath.Tree.Order

/-!
# Items and their truth

An item is a node or an atomic value. Conditions look at the first two items of a sequence: an empty
sequence is false, a node is true, a single atomic value has a truth of its own, and more than one
atomic value has none. A predicate differs in that a single number selects by position.
-/

namespace XPath

inductive Item where
  | node (n : Node)
  | atomic (a : AtomicValue)

namespace Item

def isNode : Item → Bool
  | node _ => true
  | atomic _ => false

def node? : Item → Option Node
  | node n => some n
  | atomic _ => none

def atomic? : Item → Option AtomicValue
  | node _ => none
  | atomic a => some a

def ofBool (b : Bool) : Item :=
  atomic (.boolean b)

def ofNat (n : Nat) : Item :=
  atomic (.integer (Int64.ofNat n))

def ofString (s : String) : Item :=
  atomic (.string s)

/-- The string value. -/
def value : Item → String
  | node n => n.value
  | atomic a => a.text

/-- The atomic value of the item. -/
def typedValue : Item → AtomicValue
  | node n => n.typedValue
  | atomic a => a

/-- What is shown of an item; nodes are not spelled out. -/
def display : Item → String
  | node _ => "<node>"
  | atomic a => a.text

/-- The static category of the item. -/
def resultType : Item → ResultType
  | node _ => .nodeSet
  | atomic a => a.resultType

end Item

/-- Truth of a single atomic value. -/
def AtomicValue.truth : AtomicValue → Except Error Bool
  | boolean b => .ok b
  | string s | untypedAtomic s | anyURI s => .ok !s.isEmpty
  | integer i => .ok (i != 0)
  | decimal x | double x => .ok (x != 0.0 && !x.isNaN)
  | a => .error (.format .FORG0006 [a.typeName])

def noTruth : Error :=
  .format .FORG0006 ["a sequence of two or more atomic values"]

/-- The effective boolean value of a sequence, from its first two items. -/
def effectiveBoolean : List Item → Except Error Bool
  | [] => .ok false
  | .node _ :: _ => .ok true
  | [.atomic a] => a.truth
  | .atomic _ :: _ :: _ => .error noTruth

/-- What a predicate asks of an item. -/
inductive Selection where
  | position (p : Float)
  | always (b : Bool)

namespace Selection

/-- The selection that a predicate's value makes, from its first two items. -/
def ofItems : List Item → Except Error Selection
  | [.atomic (.integer i)] => .ok (position (Float.ofInt i.toInt))
  | [.atomic (.decimal x)] | [.atomic (.double x)] => .ok (position x)
  | items => always <$> effectiveBoolean items

def accepts (s : Selection) (pos : Nat) : Bool :=
  match s with
  | position p => p == Float.ofNat pos
  | always b => b

end Selection

/-- The atomic value of a sequence of at most one item, from its first two items. -/
def atomizeOptional (what : String) : List Item → Except Error (Option AtomicValue)
  | [] => .ok none
  | [item] => .ok (some item.typedValue)
  | _ => .error (.format .XPTY0004 [what ++ " expects at most one item"])

def missingContext : Error :=
  .format .XPDY0002 ["context item"]

end XPath
