import XPath.Plan.Program

/-!
# Slots

Variables live in numbered slots while an expression runs. External variables have the lowest numbers.
A table of slots grows when a slot beyond its end is written.

`SlotTables` keeps several tables under handles: a handle may be shared, so that what is written
through one is read through the other, or forked, so that it is not.
-/

namespace XPath

structure Slots where
  values : Array (Option (List Item))

namespace Slots

def ofSize (n : Nat) : Slots :=
  ⟨Array.replicate n none⟩

def size (s : Slots) : Nat :=
  s.values.size

def get? (s : Slots) (i : Nat) : Option (List Item) :=
  (s.values[i]?).join

/-- Enough slots for number `i`. -/
def reaching (s : Slots) (i : Nat) : Slots :=
  if i < s.size then s else ⟨s.values ++ Array.replicate (i + 1 - s.size) none⟩

def set (s : Slots) (i : Nat) (value : List Item) : Slots :=
  ⟨(s.reaching i).values.setIfInBounds i (some value)⟩

/-- How many slots hold a value. -/
def filled (s : Slots) : Nat :=
  s.values.countP Option.isSome

def describe (s : Slots) : String :=
  "DataPool \x7b slots: " ++ Text.natText s.size ++ ", set: " ++ Text.natText s.filled ++ " \x7d"

end Slots

namespace Binding

def get (b : Binding) (s : Slots) : Except Error (List Item) :=
  match s.get? b.slot with
  | some items => .ok items
  | none => .error (.format .XPDY0002 ["$" ++ b.name.text])

def set (b : Binding) (s : Slots) (value : List Item) : Slots :=
  s.set b.slot value

end Binding

/-- Tables and the handles that refer to them. -/
structure SlotTables where
  tables : Array Slots
  handles : Array Nat

namespace SlotTables

/-- One table of a size, under handle 0. -/
def ofSize (n : Nat) : SlotTables :=
  ⟨#[.ofSize n], #[0]⟩

def table? (t : SlotTables) (handle : Nat) : Option Slots :=
  (t.handles[handle]?).bind (t.tables[·]?)

/-- Changes the table of a handle. -/
def update (t : SlotTables) (handle : Nat) (f : Slots → Slots) : SlotTables :=
  match t.handles[handle]? with
  | some i => { t with tables := t.tables.modify i f }
  | none => t

/-- A further handle of the same table. -/
def share (t : SlotTables) (handle : Nat) : Option SlotTables :=
  (t.handles[handle]?).map fun i => { t with handles := t.handles.push i }

/-- A handle of a copy. -/
def fork (t : SlotTables) (handle : Nat) : Option SlotTables :=
  (t.table? handle).map fun s =>
    { t with tables := t.tables.push s, handles := t.handles.push t.tables.size }

def sameTable (t : SlotTables) (a b : Nat) : Bool :=
  t.handles[a]? == t.handles[b]?

end SlotTables

end XPath
