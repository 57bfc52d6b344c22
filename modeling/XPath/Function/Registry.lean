import XPath.Function.Script
import XPath.Text.Quoted

/-!
# Functions and their registry

A function is registered under an expanded name for a range of arities. Several ranges may share a
name; they are kept so that the most specific one comes first: the larger minimum, then the smaller
maximum, then the earlier registration. A name without a namespace that has no fitting entry of its
own is looked up in the default function namespace.
-/

namespace XPath

/-- What is fixed before evaluation, functions apart. -/
structure Settings where
  defaultFunctionNamespace : Option String
  collation : String
  namespaces : List (String × String)
  /-- External variables, in the order of their slots. -/
  externals : List ExpandedName
  /-- Sort every path, also where it is known to be ordered. -/
  alwaysSort : Bool
  /-- Deliver each node once after a sort. -/
  uniqueNodes : Bool

/-- A call as its function sees it, arguments apart. -/
structure CallSite where
  settings : Settings
  arity : Nat
  /-- Bound on the loops of the script. -/
  fuel : Nat

structure FunctionEntry where
  minArity : Nat
  /-- No maximum: any number of further arguments. -/
  maxArity : Option Nat
  /-- Whether the function reads the focus. -/
  contextSensitive : Bool
  returnType : ResultType
  body : CallSite → Script Reply

namespace FunctionEntry

def accepts (e : FunctionEntry) (arity : Nat) : Bool :=
  e.minArity ≤ arity && e.maxArity.all (arity ≤ ·)

/-- Whether the entry goes before another that was registered earlier. -/
def moreSpecific (a b : FunctionEntry) : Bool :=
  b.minArity < a.minArity ||
    a.minArity == b.minArity &&
      match a.maxArity, b.maxArity with
      | some x, some y => x < y
      | some _, none => true
      | none, _ => false

/-- The arities that an entry stands for in a message; of an open range only the least. -/
def arities (e : FunctionEntry) : List Nat :=
  match e.maxArity with
  | some m => (List.range (m + 1 - e.minArity)).map (e.minArity + ·)
  | none => [e.minArity]

def describe (e : FunctionEntry) : String :=
  let max := match e.maxArity with
    | some m => "Some(" ++ Text.natText m ++ ")"
    | none => "None"
  "FunctionEntry \x7b min_arity: " ++ Text.natText e.minArity ++ ", max_arity: " ++ max ++
    ", context_sensitive: " ++ (if e.contextSensitive then "true" else "false") ++
    ", return_type: " ++ e.returnType.text ++ ", .. \x7d"

end FunctionEntry

/-- Inserts an entry behind those that are at least as specific. -/
def insertEntry (e : FunctionEntry) : List FunctionEntry → List FunctionEntry
  | [] => [e]
  | d :: ds => if e.moreSpecific d then e :: d :: ds else d :: insertEntry e ds

/-- The entries of each name. -/
structure Registry where
  entries : List (ExpandedName × List FunctionEntry)

inductive ResolveError where
  | unknown (name : ExpandedName)
  | wrongArity (name : ExpandedName) (available : List Nat)

namespace Registry

def empty : Registry := ⟨[]⟩

def registerIn (name : ExpandedName) (e : FunctionEntry) :
    List (ExpandedName × List FunctionEntry) → List (ExpandedName × List FunctionEntry)
  | [] => [(name, [e])]
  | (n, es) :: rest =>
    if n = name then (n, insertEntry e es) :: rest else (n, es) :: registerIn name e rest

def register (r : Registry) (name : ExpandedName) (e : FunctionEntry) : Registry :=
  ⟨registerIn name e r.entries⟩

def find? (r : Registry) (name : ExpandedName) : Option (List FunctionEntry) :=
  r.entries.lookup name

/-- The entry for a name and arity that stand in a call. -/
def resolve (r : Registry) (name : ExpandedName) (arity : Nat) (defaultNamespace : Option String) :
    Except ResolveError FunctionEntry :=
  match (r.find? name).bind (·.find? (·.accepts arity)) with
  | some e => .ok e
  | none =>
    let effective : ExpandedName := match name.uri, defaultNamespace with
      | none, some ns => ⟨some ns, name.localName⟩
      | _, _ => name
    match (r.find? effective).or (r.find? name) with
    | none => .error (.unknown effective)
    | some candidates =>
      match candidates.find? (·.accepts arity) with
      | some e => .ok e
      | none =>
        .error (.wrongArity effective
          (((candidates.flatMap FunctionEntry.arities).mergeSort (· ≤ ·)).eraseReps))

/-- The registered names, sorted. -/
def describe (r : Registry) : String :=
  let names := (r.entries.map (·.1.text)).mergeSort (· ≤ ·)
  "FunctionRegistry \x7b functions: " ++ Text.quotedList names ++ " \x7d"

end Registry

/-- The error of a call that cannot be resolved. -/
def ResolveError.toError (arity : Nat) : ResolveError → Error
  | unknown name => .format .XPST0017 [name.text ++ "#" ++ Text.natText arity]
  | wrongArity name available =>
    .ofCode .XPST0017 ("function " ++ name.text ++ " does not accept " ++ Text.natText arity ++
      " arguments (available arities: " ++
      String.intercalate ", " (available.map Text.natText) ++ ")")

end XPath
