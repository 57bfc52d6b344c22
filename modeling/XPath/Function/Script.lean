import XPath.Item

/-!
# What a function does

A function is called with arguments that are sequences still to be pulled. A script is what it does
with them: a tree of requests, each followed by what depends on the answer. It may advance an
argument and look at its current item, take the first items or all of them, fork an argument to run
ahead of it, and ask for the focus. It ends with a reply: items of its own, or one of its arguments as
it stands.

Arguments are known by their numbers; a fork gets the next free number.
-/

namespace XPath

inductive Script (α : Type) : Type where
  | done (a : α)
  | raise (e : Error)
  /-- Gave up after the bound on its loops. -/
  | exhausted
  | advance (arg : Nat) (next : Except Error Bool → Script α)
  | current (arg : Nat) (next : Option Item → Script α)
  | take (arg limit : Nat) (next : Except Error (List Item) → Script α)
  | drain (arg : Nat) (next : Except Error (List Item) → Script α)
  | fork (arg : Nat) (next : Nat → Script α)
  | contextItem (next : Option Item → Script α)
  | position (next : Nat → Script α)
  | last (next : Except Error Nat → Script α)

namespace Script

/-- Continues a script with what its result decides. -/
def bind {α β : Type} (s : Script α) (f : α → Script β) : Script β :=
  match s with
  | done a => f a
  | raise e => raise e
  | exhausted => exhausted
  | advance i k => advance i fun r => (k r).bind f
  | current i k => current i fun r => (k r).bind f
  | take i n k => take i n fun r => (k r).bind f
  | drain i k => drain i fun r => (k r).bind f
  | fork i k => fork i fun r => (k r).bind f
  | contextItem k => contextItem fun r => (k r).bind f
  | position k => position fun r => (k r).bind f
  | last k => last fun r => (k r).bind f

instance : Monad Script where
  pure := done
  bind := bind

def ofExcept {α : Type} : Except Error α → Script α
  | .ok a => done a
  | .error e => raise e

/-! ## Requests whose failure ends the call -/

def moveOn (arg : Nat) : Script Bool :=
  advance arg ofExcept

def firstItems (arg limit : Nat) : Script (List Item) :=
  take arg limit ofExcept

def allItems (arg : Nat) : Script (List Item) :=
  drain arg ofExcept

def requireContext : Script Item :=
  contextItem fun
    | some item => done item
    | none => raise missingContext

def groupSize : Script Nat :=
  last ofExcept

end Script

/-- The value of a call. -/
inductive Reply where
  | items (items : List Item)
  | argument (arg : Nat)

def Reply.item (i : Item) : Reply :=
  items [i]

end XPath
