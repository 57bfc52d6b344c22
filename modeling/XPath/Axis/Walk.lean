import XPath.Axis.Axis

/-!
# Walking an axis

A walk holds the node it delivers next and the stride that leads on from there. Every axis is a
starting node with a stride: repeated moves to the parent or to a sibling, a pre-order walk that
counts its depth below the origin so as not to leave the subtree, the next node in document order, or
a walk backwards that counts the levels below the origin's ancestors so as not to deliver them.

`DescentWalk` is the walk for a run of child steps below any descendant: it visits every node of a
subtree once and checks the tests from the node upwards.
-/

namespace XPath

namespace Node

/-- Climbs until a next sibling is found; the depth is that of the node below the origin. -/
def climbWithin : Nat → Node → Option (Node × Nat)
  | 0, _ => none
  | depth + 1, n =>
    match n.nextSibling? with
    | some m => some (m, depth + 1)
    | none => climbWithin depth (n.parent?.getD n)

/-- The next node of a pre-order walk that stays below the origin. -/
def nextWithin? (n : Node) (depth : Nat) : Option (Node × Nat) :=
  match n.firstChild? with
  | some c => some (c, depth + 1)
  | none => climbWithin depth n

/-- The last node of the subtree, and how many levels down it is. -/
def lastWithin : Nat → Node → Nat → Node × Nat
  | 0, n, levels => (n, levels)
  | fuel + 1, n, levels =>
    match n.lastChild? with
    | some c => lastWithin fuel c (levels + 1)
    | none => (n, levels)

/-- One step back in document order that passes over the ancestors of the origin. -/
def stepBack : Nat → Node → Nat → Option (Node × Nat)
  | 0, _, _ => none
  | fuel + 1, n, below =>
    match n.previousSibling? with
    | some m => some (lastWithin m.doc.size m below)
    | none =>
      match n.parent?, below with
      | none, _ => none
      | some p, 0 => stepBack fuel p 0
      | some p, b + 1 => some (p, b)

def back? (n : Node) (below : Nat) : Option (Node × Nat) :=
  stepBack (n.doc.size + 1) n below

end Node

inductive Stride where
  | stay
  | parent
  | nextSibling
  | previousSibling
  | nextAttribute
  | nextNamespace
  | within (depth : Nat)
  | onward (kind : Option NodeKind)
  | backward (below : Nat)

inductive Walk where
  | ended
  | facing (node : Node) (stride : Stride)

namespace Walk

/-- A walk that begins with the node, if there is one. -/
def upon (stride : Stride) : Option Node → Walk
  | some n => facing n stride
  | none => ended

def uponWithin : Option (Node × Nat) → Walk
  | some (n, depth) => facing n (.within depth)
  | none => ended

def uponBackward : Option (Node × Nat) → Walk
  | some (n, below) => facing n (.backward below)
  | none => ended

/-- The walk of an axis from an origin. Only the kind of node may be asked for on the way onward. -/
def start (axis : Axis) (kind : Option NodeKind) (origin : Node) : Walk :=
  let attributeLike := origin.kind.isAttributeLike
  match axis with
  | .self => facing origin .stay
  | .parent => upon .stay origin.parent?
  | .ancestor => upon .parent origin.parent?
  | .ancestorOrSelf => facing origin .parent
  | .child => upon .nextSibling origin.firstChild?
  | .attribute => upon .nextAttribute origin.firstAttribute?
  | .namespaces => upon .nextNamespace origin.firstNamespace?
  | .descendant => uponWithin (origin.nextWithin? 0)
  | .descendantOrSelf => facing origin (.within 0)
  | .followingSibling => if attributeLike then ended else upon .nextSibling origin.nextSibling?
  | .precedingSibling =>
    if attributeLike then ended else upon .previousSibling origin.previousSibling?
  | .following =>
    if attributeLike then
      upon (.onward kind) (origin.parent?.bind (·.following? kind none))
    else upon (.onward kind) origin.afterSubtree?
  | .preceding =>
    if attributeLike then uponBackward (origin.parent?.bind (·.back? 0))
    else uponBackward (origin.back? 0)

/-- The walk after it has delivered the node. -/
def after (n : Node) : Stride → Walk
  | .stay => ended
  | .parent => upon .parent n.parent?
  | .nextSibling => upon .nextSibling n.nextSibling?
  | .previousSibling => upon .previousSibling n.previousSibling?
  | .nextAttribute => upon .nextAttribute n.nextAttribute?
  | .nextNamespace => upon .nextNamespace n.nextNamespace?
  | .within depth => uponWithin (n.nextWithin? depth)
  | .onward kind => upon (.onward kind) (n.following? kind none)
  | .backward below => uponBackward (n.back? below)

/-- More than the number of nodes the walk can still deliver. -/
def bound : Walk → Nat
  | ended => 0
  | facing n .nextNamespace =>
    match n.place with
    | .namespaceOf owner _ => (n.doc.inScope owner).length + 1
    | .entry _ => 1
  | facing n _ => n.doc.size + 1

/-- The next node that the test accepts, among the next `fuel`. -/
def seek (accepts : Node → Bool) : Nat → Walk → Option (Node × Walk)
  | 0, _ => none
  | _, ended => none
  | fuel + 1, facing n stride =>
    if accepts n then some (n, after n stride) else seek accepts fuel (after n stride)

/-- The next node that the test accepts, and the walk after it. -/
def next? (accepts : Node → Bool) (w : Walk) : Option (Node × Walk) :=
  w.seek accepts w.bound

end Walk

/-- Tests for a node, its parent, its parent's parent, and so on. -/
def acceptsUpward : List NodeTest → Node → Bool
  | [], _ => true
  | [t], n => t.accepts n .element
  | t :: ts, n => t.accepts n .element && n.parent?.any (acceptsUpward ts)

/-- A node of the subtree below an origin, at a depth. -/
structure DescentWalk where
  node : Node
  depth : Nat

namespace DescentWalk

/-- The first test applies to a child of the origin at the earliest. -/
def accepts (tests : List NodeTest) (w : DescentWalk) : Bool :=
  tests.length ≤ w.depth && acceptsUpward tests.reverse w.node

def seek (tests : List NodeTest) : Nat → DescentWalk → Option DescentWalk
  | 0, _ => none
  | fuel + 1, w =>
    match w.node.nextWithin? w.depth with
    | none => none
    | some (n, depth) =>
      if accepts tests ⟨n, depth⟩ then some ⟨n, depth⟩ else seek tests fuel ⟨n, depth⟩

/-- The next node after this one that ends a chain of children accepted by the tests. -/
def next? (tests : List NodeTest) (w : DescentWalk) : Option DescentWalk :=
  w.seek tests (w.node.doc.size + 1)

end DescentWalk

end XPath
