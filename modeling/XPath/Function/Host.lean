import XPath.Function.Registry

/-!
# Functions a host may supply

Small functions that show what a host can do with lazily computed arguments: hand one back, pull
several side by side, or fork one and run ahead of it.
-/

namespace XPath

namespace HostFunction

open Script

/-- The first argument as it stands; nothing without arguments. -/
def first (call : CallSite) : Script Reply :=
  if call.arity = 0 then done (.items []) else done (.argument 0)

def argumentCount (call : CallSite) : Script Reply :=
  done (.item (.ofNat call.arity))

def contextItem : Script Reply := do
  return .item (← requireContext)

def position : Script Reply :=
  Script.position fun n => done (.item (.ofNat n))

def last : Script Reply := do
  return .item (.ofNat (← groupSize))

def fail (code : ExpandedName) (message : String) : Script Reply :=
  raise (.ofName code message)

def constant (s : String) : Script Reply :=
  done (.item (.ofString s))

/-- The default function namespace of the call, or a word for none. -/
def defaultNamespace (call : CallSite) : Script Reply :=
  constant (call.settings.defaultFunctionNamespace.getD "none")

/-- One round: the next item of each of `n` arguments from number `arg` on. -/
def pullRound : Nat → Nat → Script (List Item)
  | 0, _ => done []
  | n + 1, arg => do
    if ← moveOn arg then
      current arg fun item => do return item.toList ++ (← pullRound n (arg + 1))
    else pullRound n (arg + 1)

/-- Rounds until one brings nothing. -/
def pullRounds (arity : Nat) : Nat → List Item → Script (List Item)
  | 0, _ => exhausted
  | fuel + 1, acc => do
    match ← pullRound arity 0 with
    | [] => return acc.reverse
    | items => pullRounds arity fuel (items.reverse ++ acc)

/-- The items of all arguments, taken in turns. -/
def zip (call : CallSite) : Script Reply := do
  return .items (← pullRounds call.arity call.fuel [])

/-- After each item, all that is left from that item on, read off a fork. -/
def tailsFrom : Nat → List Item → Script (List Item)
  | 0, _ => exhausted
  | fuel + 1, acc => do
    if ← moveOn 0 then
      fork 0 fun copy =>
        current copy fun item => do
          let rest ← allItems copy
          tailsFrom fuel (.ofString "|" :: (item.toList ++ rest).reverse ++ acc)
    else return acc.reverse

/-- The tails of the first argument, each ended by a bar. -/
def tails (call : CallSite) : Script Reply :=
  if call.arity = 0 then done (.items [])
  else do return .items (← tailsFrom call.fuel [])

end HostFunction

end XPath
