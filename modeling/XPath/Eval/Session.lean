import XPath.Eval.Run

/-!
# Sessions

A session holds cursors that are pulled, reset and copied in any order, together with the caches they
share. A cursor is described by its source: expressions, lists, and the combinators on top of them.
-/

namespace XPath

/-- How a cursor is made. -/
inductive Source where
  | expr (e : Expr)
  | empty
  | items (items : List Item)
  | range (first last : Int64)
  /-- Keeps what it draws from its source in a cache. -/
  | buffered (s : Source)
  | cached (items : List Item)
  | concat (parts : List Source)
  | nodesOnly (s : Source)
  | axis (axis : Axis) (test : NodeTest) (s : Source)
  | descent (tests : List NodeTest) (s : Source)
  | nth (n : Nat) (perGroup : Bool) (s : Source)
  | ordered (unique : Bool) (s : Source)

structure Session where
  static : StaticContext
  dynamic : DynamicContext
  fuel : Nat
  caches : Array Cache
  cursors : Array Cursor

namespace Session

def new (fuel : Nat) (static : StaticContext) (dynamic : DynamicContext) : Session :=
  ⟨static, dynamic, fuel, #[], #[]⟩

/-! ## Making cursors -/

/-- Makes cursors against the caches so far; `none` inside is a run without result. -/
abbrev Builder := StateT (Array Cache) (ExceptT Error Option)

def newCache (c : Cache) : Builder Cursor := fun caches =>
  pure (.ofCache caches.size, caches.push c)

def ofQuery (fuel : Nat) (static : StaticContext) (dynamic : DynamicContext) (e : Expr) :
    ExceptT Error Option Cursor := do
  let q ← compile static e
  q.stream fuel dynamic

mutual

def build (fuel : Nat) (static : StaticContext) (dynamic : DynamicContext) :
    Source → Builder Cursor
  | .expr e => StateT.lift (ofQuery fuel static dynamic e)
  | .empty => return .empty
  | .items items => return .ofItems items
  | .range first last => return .ofRange first last
  | .buffered s => do newCache (.ofSource (← build fuel static dynamic s))
  | .cached items => newCache (.ofItems items)
  | .concat parts => do return .ofParts (← buildAll fuel static dynamic parts)
  | .nodesOnly s => do return .requireNodes (← build fuel static dynamic s)
  | .axis a test s => do return .along a test (← build fuel static dynamic s)
  | .descent tests s => do return .descending tests (← build fuel static dynamic s)
  | .nth n perGroup s => do return .pick n perGroup (← build fuel static dynamic s)
  | .ordered unique s => do return .inOrder unique (← build fuel static dynamic s)

def buildAll (fuel : Nat) (static : StaticContext) (dynamic : DynamicContext) :
    List Source → Builder (List Cursor)
  | [] => return []
  | s :: rest => do
    let c ← build fuel static dynamic s
    return c :: (← buildAll fuel static dynamic rest)

end

/-- Adds the cursor of a source. -/
def openSource (s : Session) (source : Source) : Option (Except Error Session) :=
  ((build s.fuel s.static s.dynamic source).run s.caches).run.map fun r =>
    r.map fun (c, caches) => { s with caches := caches, cursors := s.cursors.push c }

/-! ## Using cursors -/

def cursor? (s : Session) (i : Nat) : Option Cursor :=
  s.cursors[i]?

/-- Runs an operation on the caches of the session. Cursors bring their programs and slots along. -/
def perform {α : Type} (s : Session) (f : Calls → Run α) : Option (α × Session) :=
  let run := f (machine s.fuel (.empty s.static))
  (run.run ⟨.ofSize 0, s.caches, none⟩).map fun (a, store) =>
    (a, { s with caches := store.caches })

def replace (s : Session) (i : Nat) (c : Cursor) : Session :=
  { s with cursors := s.cursors.setIfInBounds i c }

/-- Pulls cursor `i` once. -/
def next (s : Session) (i : Nat) : Option (Except Error Bool × Session) := do
  let c ← s.cursor? i
  let ((c, r), s) ← s.perform (·.next c)
  return (r, s.replace i c)

/-- Pulls cursor `i` until `limit` items, the end or an error. -/
def take (s : Session) (i : Nat) : Nat → Option (List (Item × Nat) × Option Error × Session)
  | 0 => some ([], none, s)
  | limit + 1 => do
    let (r, s) ← s.next i
    match r with
    | .ok true => do
      let c ← s.cursor? i
      let (items, e, s) ← s.take i limit
      return (c.current.toList.map (·, c.position) ++ items, e, s)
    | .ok false => return ([], none, s)
    | .error e => return ([], some e, s)

def reset (s : Session) (i : Nat) : Session :=
  { s with cursors := s.cursors.modify i Cursor.reset }

def resetPosition (s : Session) (i : Nat) : Session :=
  { s with cursors := s.cursors.modify i Cursor.resetPosition }

/-- Adds a copy of cursor `i`. -/
def clone (s : Session) (i : Nat) : Option Session := do
  let c ← s.cursor? i
  let (c, s) ← s.perform (·.clone c)
  return { s with cursors := s.cursors.push c }

end Session

end XPath
