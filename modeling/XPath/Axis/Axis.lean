import XPath.Axis.Test

/-!
# Axes
-/

namespace XPath

inductive Axis where
  | child
  | descendant
  | descendantOrSelf
  | parent
  | ancestor
  | ancestorOrSelf
  | followingSibling
  | following
  | precedingSibling
  | preceding
  | attribute
  | namespaces
  | self
deriving DecidableEq

namespace Axis

def all : List Axis :=
  [.child, .descendant, .descendantOrSelf, .parent, .ancestor, .ancestorOrSelf, .followingSibling,
    .following, .precedingSibling, .preceding, .attribute, .namespaces, .self]

/-- The kind of node that a name test selects on the axis. -/
def principalKind : Axis → NodeKind
  | .attribute => .attribute
  | .namespaces => .namespaceNode
  | _ => .element

/-- A reverse axis delivers nodes against document order. -/
def isReverse : Axis → Bool
  | .parent | .ancestor | .ancestorOrSelf | .precedingSibling | .preceding => true
  | _ => false

def text : Axis → String
  | .child => "child"
  | .descendant => "descendant"
  | .descendantOrSelf => "descendant-or-self"
  | .parent => "parent"
  | .ancestor => "ancestor"
  | .ancestorOrSelf => "ancestor-or-self"
  | .followingSibling => "following-sibling"
  | .following => "following"
  | .precedingSibling => "preceding-sibling"
  | .preceding => "preceding"
  | .attribute => "attribute"
  | .namespaces => "namespace"
  | .self => "self"

def ofText? (s : String) : Option Axis :=
  all.find? (·.text == s)

end Axis

end XPath
