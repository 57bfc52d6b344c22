import XPath.Atomic.Arithmetic
import XPath.Function.Registry

/-!
# The core functions

The functions every static context starts with. Those that read the focus without an argument are
marked as context-sensitive.
-/

namespace XPath

namespace CoreFunction

open Script

/-- The first items of an argument where at most one is allowed. -/
def optionalAtomic (what : String) (arg : Nat) : Script (Option AtomicValue) := do
  ofExcept (atomizeOptional what (← firstItems arg 2))

def stringArgument (what : String) (arg : Nat) : Script String := do
  return (← optionalAtomic what arg).elim "" AtomicValue.text

def reply (a : AtomicValue) : Script Reply :=
  done (.item (.atomic a))

def position : Script Reply := do
  let _ ← requireContext
  Script.position fun n => reply (.integer (Int64.ofNat n))

def last : Script Reply := do
  reply (.integer (Int64.ofNat (← groupSize)))

def count : Script Reply := do
  reply (.integer (Int64.ofNat (← allItems 0).length))

def boolean : Script Reply := do
  reply (.boolean (← ofExcept (effectiveBoolean (← firstItems 0 2))))

def not : Script Reply := do
  reply (.boolean !(← ofExcept (effectiveBoolean (← firstItems 0 2))))

def isEmpty : Script Reply := do
  reply (.boolean (← firstItems 0 1).isEmpty)

def nonEmpty : Script Reply := do
  reply (.boolean !(← firstItems 0 1).isEmpty)

def contextString : Script Reply := do
  reply (.string (← requireContext).value)

def string : Script Reply := do
  match ← firstItems 0 2 with
  | [] => reply (.string "")
  | [item] => reply (.string item.value)
  | _ => raise (.format .XPTY0004 ["fn:string expects at most one item"])

def contextNumber : Script Reply := do
  reply (.double (← requireContext).typedValue.toDouble)

def number : Script Reply := do
  let a ← optionalAtomic "fn:number" 0
  reply (.double (a.elim Decimal.nan AtomicValue.toDouble))

def contextStringLength : Script Reply := do
  reply (.integer (Int64.ofNat (← requireContext).value.length))

def stringLength : Script Reply := do
  reply (.integer (Int64.ofNat (← stringArgument "fn:string-length" 0).length))

/-- The name of a node; nothing has the empty name, and an atomic value has none. -/
def nodeName (localOnly : Bool) : Option Item → Script Reply
  | none => reply (.string "")
  | some (.node n) =>
    reply (.string (n.name.elim "" fun q => if localOnly then q.localName else q.text))
  | some (.atomic a) => raise (.format .XPTY0004 ["expected a node, got " ++ a.typeName])

def contextName (localOnly : Bool) : Script Reply := do
  nodeName localOnly (some (← requireContext))

def name (localOnly : Bool) : Script Reply := do
  match ← firstItems 0 2 with
  | [] => nodeName localOnly none
  | [item] => nodeName localOnly (some item)
  | _ => raise (.format .XPTY0004 ["expected at most one item"])

/-- The text of the arguments from `arg` on, of which there are `n`. -/
def concatFrom : Nat → Nat → Script String
  | 0, _ => done ""
  | n + 1, arg => do
    let s ← stringArgument "fn:concat" arg
    return s ++ (← concatFrom n (arg + 1))

def concat (call : CallSite) : Script Reply := do
  reply (.string (← concatFrom call.arity 0))

/-- Untyped text counts as a double in a sum, NaN if it is not one. -/
def summand : AtomicValue → AtomicValue
  | .untypedAtomic s => .double (AtomicValue.string s).toDouble
  | a => a

/-- The sum of values, from left to right; the sum of none is zero. -/
def total : List AtomicValue → Except Error AtomicValue
  | [] => .ok (.integer 0)
  | a :: as => as.foldlM (arithmetic .add) a

def sum : Script Reply := do
  let values := (← allItems 0).map (summand ·.typedValue)
  reply (← ofExcept (total values))

def exactly (arity : Nat) (returnType : ResultType) (script : Script Reply) : FunctionEntry :=
  ⟨arity, some arity, false, returnType, fun _ => script⟩

def onFocus (returnType : ResultType) (script : Script Reply) : FunctionEntry :=
  ⟨0, some 0, true, returnType, fun _ => script⟩

def table : List (String × FunctionEntry) :=
  [("position", onFocus .number position),
   ("last", onFocus .number last),
   ("count", exactly 1 .number count),
   ("true", exactly 0 .boolean (reply (.boolean true))),
   ("false", exactly 0 .boolean (reply (.boolean false))),
   ("boolean", exactly 1 .boolean boolean),
   ("not", exactly 1 .boolean not),
   ("empty", exactly 1 .boolean isEmpty),
   ("exists", exactly 1 .boolean nonEmpty),
   ("string", onFocus .atomic contextString),
   ("string", exactly 1 .atomic string),
   ("number", onFocus .number contextNumber),
   ("number", exactly 1 .number number),
   ("string-length", onFocus .number contextStringLength),
   ("string-length", exactly 1 .number stringLength),
   ("name", onFocus .atomic (contextName false)),
   ("name", exactly 1 .atomic (name false)),
   ("local-name", onFocus .atomic (contextName true)),
   ("local-name", exactly 1 .atomic (name true)),
   ("concat", ⟨2, none, false, .atomic, concat⟩),
   ("sum", exactly 1 .number sum)]

end CoreFunction

/-- The core functions, in their namespace. -/
def coreFunctions : Registry :=
  CoreFunction.table.foldl
    (fun r (n, e) => r.register ⟨some functionNamespace, n⟩ e) Registry.empty

end XPath
