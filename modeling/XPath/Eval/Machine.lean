import XPath.Eval.Cursor

/-!
# The machine

Pulling a cursor, copying it and executing an expression call each other. `Calls` has these three
operations with a bound on how deep they may go; the operations at one depth are defined from the
operations at the depth below, and `XPath.Eval.Run` ties the knot. Loops over a cursor are bounded by
the same number. How variables are kept is left open here (`Variables`).

A run has a store: the slots in use, the caches that cursors share, and the group size of the current
focus once it has been counted. A run that reaches its bound has no result at all; an error of the
expression is a result.
-/

namespace XPath

/-- Items already drawn from a source, and how the source ended. -/
structure Cache where
  source : Option Cursor
  items : Array Item
  error : Option Error

namespace Cache

def ofSource (c : Cursor) : Cache :=
  ⟨some c, #[], none⟩

def ofItems (items : List Item) : Cache :=
  ⟨none, items.toArray, none⟩

end Cache

structure Store where
  slots : Slots
  caches : Array Cache
  groupSize : Option Nat

def Store.ofSlots (slots : Slots) : Store :=
  ⟨slots, #[], none⟩

abbrev Run := StateT Store Option

abbrev Eval := ExceptT Error Run

def outOfFuel {α : Type} : Run α :=
  fun _ => none

/-- The result of pulling a cursor: its next state, and whether it has a current item. -/
abbrev Pulled := Cursor × Except Error Bool

/-- What an expression sees: a fixed focus, or the current item of a cursor. -/
inductive Focus where
  | fixed (s : Snapshot)
  | current (input : Cursor)

namespace Focus

def item? : Focus → Option Item
  | fixed s => s.item
  | current input => input.current

def position : Focus → Nat
  | fixed s => s.position
  | current input => input.position

end Focus

/-- How the variables of a program are kept while it runs. -/
structure Variables where
  /-- The value of a variable that is referred to by name and, once bound, by slot. -/
  lookup : ExpandedName → Option Binding → Eval (List Item)
  /-- Computes a sequence in a focus with a loop variable set to an item. -/
  iterate : Binding → Item → Focus → (Focus → Eval Cursor) → Eval Cursor

structure Calls where
  /-- Bound on loops. -/
  fuel : Nat
  next : Cursor → Run Pulled
  clone : Cursor → Run Cursor
  execute : ExprId → Focus → Eval Cursor
  vars : Variables

/-- No depth left. -/
def Calls.spent (v : Variables) : Calls :=
  ⟨0, fun _ => outOfFuel, fun _ => outOfFuel, fun _ _ => ExceptT.lift outOfFuel, v⟩

/-! ## Slots and the group size of the focus -/

def readSlot (b : Binding) : Eval (List Item) := do
  b.get (← get).slots

def writeSlot (b : Binding) (item : Item) : Run Unit :=
  modify fun s => { s with slots := b.set s.slots [item] }

/-- Runs on other slots and gives them back as they are afterwards. -/
def onSlots {α : Type} (slots : Slots) (x : Run α) : Run (α × Slots) := do
  let outer := (← get).slots
  modify fun s => { s with slots := slots }
  let a ← x
  let inner := (← get).slots
  modify fun s => { s with slots := outer }
  return (a, inner)

/-- Runs with a focus of its own, whose group size may be known, and tells the size afterwards. -/
def withGroupSize {α : Type} (known : Option Nat) (x : Run α) : Run (α × Option Nat) := do
  let outer := (← get).groupSize
  modify fun s => { s with groupSize := known }
  let a ← x
  let size := (← get).groupSize
  modify fun s => { s with groupSize := outer }
  return (a, size)

namespace Calls

/-! ## Loops over a cursor -/

/-- All items that are left. -/
def drainFrom (m : Calls) : Nat → Cursor → List Item → Run (Cursor × Except Error (List Item))
  | 0, _, _ => outOfFuel
  | fuel + 1, c, acc => do
    let (c, r) ← m.next c
    match r with
    | .ok true => m.drainFrom fuel c (c.current.toList ++ acc)
    | .ok false => return (c, .ok acc.reverse)
    | .error e => return (c, .error e)

def drainWith (m : Calls) (c : Cursor) : Run (Cursor × Except Error (List Item)) :=
  m.drainFrom m.fuel c []

def drain (m : Calls) (c : Cursor) : Eval (List Item) := do
  (← m.drainWith c).2

/-- At most `limit` items. -/
def takeFrom (m : Calls) (limit : Nat) :
    Nat → Cursor → List Item → Run (Cursor × Except Error (List Item))
  | 0, _, _ => outOfFuel
  | fuel + 1, c, acc =>
    if limit ≤ acc.length then return (c, .ok acc.reverse)
    else do
      let (c, r) ← m.next c
      match r with
      | .ok true => m.takeFrom limit fuel c (c.current.toList ++ acc)
      | .ok false => return (c, .ok acc.reverse)
      | .error e => return (c, .error e)

def takeWith (m : Calls) (limit : Nat) (c : Cursor) : Run (Cursor × Except Error (List Item)) :=
  m.takeFrom limit m.fuel c []

/-- The first two items, which decide conditions and singletons. -/
def firstTwo (m : Calls) (c : Cursor) : Eval (List Item) := do
  (← m.takeWith 2 c).2

/-- Pulls `n` times, or until the end. -/
def skip (m : Calls) : Nat → Cursor → Eval Cursor
  | 0, c => return c
  | n + 1, c => do
    let (c, r) ← m.next c
    if ← r then m.skip n c else return c

/-- The position of the last item of the group, pulling until a new group or the end. -/
def countGroup (m : Calls) : Nat → Cursor → Nat → Eval Nat
  | 0, _, _ => ExceptT.lift outOfFuel
  | fuel + 1, ahead, last => do
    let (ahead, r) ← m.next ahead
    if ← r then
      if ahead.position ≤ last then return last
      else m.countGroup fuel ahead ahead.position
    else return last

/-- The size of the focus. Over a cursor it is counted once, on a copy that runs ahead. -/
def last (m : Calls) : Focus → Eval Nat
  | .fixed s => s.last
  | .current input => do
    match (← get).groupSize with
    | some n => return n
    | none => do
      let ahead ← m.clone input
      let n ← m.countGroup m.fuel ahead ahead.position
      modify fun s => { s with groupSize := some n }
      return n

/-- The focus as it is now. The size is asked for only if it is needed. -/
def snapshot (m : Calls) (focus : Focus) (needSize : Bool) : Run Snapshot := do
  let last ← if needSize then (m.last focus).run else pure (.error missingContext)
  return ⟨focus.item?, focus.position, last⟩

/-- Item number `i` of a cache, drawing from the source as far as that. The source is not pulled again
after its end or its error. -/
def fetch (m : Calls) (i : Nat) : Nat → Cache → Run (Cache × Except Error (Option Item))
  | 0, _ => outOfFuel
  | fuel + 1, cache =>
    match cache.items[i]?, cache.error, cache.source with
    | some item, _, _ => return (cache, .ok (some item))
    | none, some e, _ => return (cache, .error e)
    | none, none, none => return (cache, .ok none)
    | none, none, some source => do
      let (source, r) ← m.next source
      match r with
      | .ok true =>
        m.fetch i fuel
          { cache with source := some source, items := cache.items ++ source.current.toList }
      | .ok false => m.fetch i fuel { cache with source := none }
      | .error e => return ({ cache with source := none, error := some e }, .error e)

end Calls

end XPath
