import XPath.Axis.Walk
import XPath.Eval.Slots

/-!
# Cursors

A cursor is a sequence that is still being computed, together with how far it has been read. It has a
current item and the position of that item in its group: steps along an axis open a group for every
node they start from, and other sequences are one group. A reader knows that a new group has begun when
the position does not grow.

This module has the states of all cursors and what can be read off them. Pulling the next item is in
`XPath.Eval.Pull`, copying in `XPath.Eval.Copy`.

Predicates, loops and expression steps run parts of a program on slots. They use the program and the
slots of whoever pulls them, unless they stand inside a `scope`, which brings its own.
-/

namespace XPath

/-- A focus as it was at one moment. The number of items may be unknown for a reason. -/
structure Snapshot where
  item : Option Item
  position : Nat
  last : Except Error Nat

namespace Snapshot

/-- The focus of an item that stands alone. -/
def single (item : Option Item) : Snapshot :=
  let size := if item.isSome then 1 else 0
  ⟨item, size, .ok size⟩

def placed (item : Item) (position last : Nat) : Snapshot :=
  ⟨some item, position, .ok last⟩

end Snapshot

mutual

inductive Cursor where
  | empty
  /-- A list of known items, with what is left of it. -/
  | items (all rest : List Item) (current : Option Item) (pos : Nat) (finished : Bool)
  /-- Consecutive integers. -/
  | range (first last : Int64) (upcoming current : Option Int64) (pos : Nat)
  /-- A reader of a shared cache that has taken `taken` items from it. -/
  | buffered (cache taken : Nat) (current : Option Item) (pos : Nat) (finished : Bool)
  /-- Parts one after the other as one group. The parts already read come last one first. -/
  | concat (spent rest : List Cursor) (pos : Nat) (finished : Bool)
  /-- Passes nodes through and refuses atomic values. -/
  | nodesOnly (input : Cursor) (finished : Bool)
  | axis (axis : Axis) (test : NodeTest) (source : Cursor) (walk : Walk) (current : Option Node)
      (pos : Nat) (finished : Bool)
  | descent (tests : List NodeTest) (source : Cursor) (walk : Option DescentWalk)
      (current : Option Node) (pos : Nat) (finished : Bool)
  /-- The `n`-th item of every group, or of the whole input. -/
  | nth (n : Nat) (perGroup : Bool) (input : Cursor) (inputPos : Nat) (groupDone : Bool)
      (pos : Nat) (finished : Bool)
  /-- The items that a predicate selects. A predicate that does not read the focus is evaluated once,
  and the group size is kept once it is known. -/
  | predicate (e : ExprId) (input : Cursor) (inputPos : Nat) (fixed : Option Selection)
      (groupSize : Option Nat) (pos : Nat) (finished : Bool)
  | forEach (body : ExprId) (binding : Binding) (focus : Snapshot) (source : Cursor)
      (run : BodyRun) (pos : Nat) (finished : Bool)
  /-- An expression evaluated with every item of the source as its focus; each run is a group. -/
  | step (e : ExprId) (source : Cursor) (run : BodyRun) (pos : Nat) (finished : Bool)
  /-- Nodes in document order; atomic values as they come. -/
  | ordered (unique : Bool) (supply : Supply) (current : Option Item) (pos : Nat) (finished : Bool)
  | scope (program : Program) (slots : Slots) (cursor : Cursor)

/-- The sequence computed for the current item of a source. -/
inductive BodyRun where
  | idle
  /-- `consumed` items have been read from it. -/
  | running (inner : Cursor) (consumed : Nat)
  /-- It could not be computed again for a copy; the copy reports that when it is pulled. -/
  | failed (e : Error)

/-- What an ordered cursor draws from: an input still to be sorted, or a sorted list. -/
inductive Supply where
  | unsorted (input : Cursor)
  | sorted (all rest : List Item)

end

namespace Cursor

def ofItems (items : List Item) : Cursor :=
  .items items items none 0 false

def ofItem (item : Item) : Cursor :=
  ofItems [item]

def ofAtomic (a : AtomicValue) : Cursor :=
  ofItem (.atomic a)

def firstOfRange (first last : Int64) : Option Int64 :=
  if first ≤ last then some first else none

def ofRange (first last : Int64) : Cursor :=
  .range first last (firstOfRange first last) none 0

def ofCache (cache : Nat) : Cursor :=
  .buffered cache 0 none 0 false

def ofParts (parts : List Cursor) : Cursor :=
  .concat [] parts 0 false

def requireNodes (input : Cursor) : Cursor :=
  .nodesOnly input false

def along (axis : Axis) (test : NodeTest) (source : Cursor) : Cursor :=
  .axis axis test source .ended none 0 false

def descending (tests : List NodeTest) (source : Cursor) : Cursor :=
  .descent tests source none none 0 false

def pick (n : Nat) (perGroup : Bool) (input : Cursor) : Cursor :=
  .nth n perGroup input 0 false 0 false

def filter (e : ExprId) (input : Cursor) : Cursor :=
  .predicate e input 0 none none 0 false

def loop (body : ExprId) (binding : Binding) (focus : Snapshot) (source : Cursor) : Cursor :=
  .forEach body binding focus source .idle 0 false

def through (e : ExprId) (source : Cursor) : Cursor :=
  .step e source .idle 0 false

def inOrder (unique : Bool) (input : Cursor) : Cursor :=
  .ordered unique (.unsorted input) none 0 false

end Cursor

/-! ## Reading a cursor's state -/

mutual

def Cursor.current : Cursor → Option Item
  | .empty => none
  | .items _ _ current _ _ => current
  | .range _ _ _ current _ => current.map fun i => .atomic (.integer i)
  | .buffered _ _ current _ _ => current
  | .concat _ rest _ finished => if finished then none else currentOfHead rest
  | .nodesOnly input finished => if finished then none else input.current
  | .axis _ _ _ _ current _ _ => current.map .node
  | .descent _ _ _ current _ _ => current.map .node
  | .nth _ _ input _ _ _ finished => if finished then none else input.current
  | .predicate _ input _ _ _ _ finished => if finished then none else input.current
  | .forEach _ _ _ _ run _ _ => run.current
  | .step _ _ run _ _ => run.current
  | .ordered _ _ current _ _ => current
  | .scope _ _ cursor => cursor.current

def currentOfHead : List Cursor → Option Item
  | [] => none
  | c :: _ => c.current

def BodyRun.current : BodyRun → Option Item
  | .running inner _ => inner.current
  | _ => none

end

/-- The position of the current item in its group. -/
def Cursor.position : Cursor → Nat
  | .empty => 0
  | .nodesOnly input _ => input.position
  | .scope _ _ cursor => cursor.position
  | .items _ _ _ pos _ | .range _ _ _ _ pos | .buffered _ _ _ pos _ | .concat _ _ pos _
  | .axis _ _ _ _ _ pos _ | .descent _ _ _ _ pos _ | .nth _ _ _ _ _ pos _
  | .predicate _ _ _ _ _ pos _ | .forEach _ _ _ _ _ pos _ | .step _ _ _ pos _
  | .ordered _ _ _ pos _ => pos

def Cursor.isFinished : Cursor → Bool
  | .empty => true
  | .range _ _ upcoming current _ => upcoming.isNone && current.isNone
  | .scope _ _ cursor => cursor.isFinished
  | .items _ _ _ _ finished | .buffered _ _ _ _ finished | .concat _ _ _ finished
  | .nodesOnly _ finished | .axis _ _ _ _ _ _ finished | .descent _ _ _ _ _ finished
  | .nth _ _ _ _ _ _ finished | .predicate _ _ _ _ _ _ finished | .forEach _ _ _ _ _ _ finished
  | .step _ _ _ _ finished | .ordered _ _ _ _ finished => finished

/-- Starts counting positions again, without moving. -/
def Cursor.resetPosition : Cursor → Cursor
  | .empty => .empty
  | .items all rest current _ fin => .items all rest current 0 fin
  | .range first last upcoming current _ => .range first last upcoming current 0
  | .buffered cache taken current _ fin => .buffered cache taken current 0 fin
  | .concat spent rest _ fin => .concat spent rest 0 fin
  | .nodesOnly input fin => .nodesOnly input.resetPosition fin
  | .axis a test source walk current _ fin => .axis a test source walk current 0 fin
  | .descent tests source walk current _ fin => .descent tests source walk current 0 fin
  | .nth n perGroup input inputPos done _ fin => .nth n perGroup input inputPos done 0 fin
  | .predicate e input inputPos fixed size _ fin => .predicate e input inputPos fixed size 0 fin
  | .forEach body binding focus source run _ fin => .forEach body binding focus source run 0 fin
  | .step e source run _ fin => .step e source run 0 fin
  | .ordered unique supply current _ fin => .ordered unique supply current 0 fin
  | .scope program slots cursor => .scope program slots cursor.resetPosition

mutual

/-- Back to the beginning. Caches keep their items, and so does a list that has been sorted. -/
def Cursor.reset : Cursor → Cursor
  | .empty => .empty
  | .items all _ _ _ _ => .ofItems all
  | .range first last _ _ _ => .ofRange first last
  | .buffered cache _ _ _ _ => .ofCache cache
  | .concat spent rest _ _ => .ofParts ((resetAll spent).reverse ++ resetAll rest)
  | .nodesOnly input _ => .requireNodes input.reset
  | .axis a test source _ _ _ _ => .along a test source.reset
  | .descent tests source _ _ _ _ => .descending tests source.reset
  | .nth n perGroup input _ _ _ _ => .pick n perGroup input.reset
  | .predicate e input _ _ _ _ _ => .filter e input.reset
  | .forEach body binding focus source _ _ _ => .loop body binding focus source.reset
  | .step e source _ _ _ => .through e source.reset
  | .ordered unique supply _ _ _ => .ordered unique supply.reset none 0 false
  | .scope program slots cursor => .scope program slots cursor.reset

def resetAll : List Cursor → List Cursor
  | [] => []
  | c :: cs => c.reset :: resetAll cs

def Supply.reset : Supply → Supply
  | .unsorted input => .unsorted input.reset
  | .sorted all _ => .sorted all all

end

end XPath
