import XPath.Function.Core

/-!
# Contexts

The static context is what an expression is compiled against: settings and functions. The dynamic
context is what it is evaluated in: a context item and the values of the external variables.
-/

namespace XPath

structure StaticContext where
  settings : Settings
  functions : Registry

/-- Binds a key, replacing an earlier binding. -/
def bindKey {α β : Type} [DecidableEq α] (k : α) (v : β) (pairs : List (α × β)) : List (α × β) :=
  (k, v) :: pairs.filter (·.1 ≠ k)

namespace StaticContext

def standard : StaticContext :=
  { settings :=
      { defaultFunctionNamespace := some functionNamespace
        collation := codepointCollation
        namespaces := [("xml", xmlNamespace), ("fn", functionNamespace)]
        externals := []
        alwaysSort := false
        uniqueNodes := true }
    functions := coreFunctions }

/-- Binds a prefix. The reserved prefix cannot be bound again. -/
def withNamespace (c : StaticContext) (nsPrefix uri : String) : StaticContext :=
  if nsPrefix = "xml" then c
  else
    { c with settings :=
        { c.settings with namespaces := bindKey nsPrefix uri c.settings.namespaces } }

/-- Declares an external variable, once. -/
def withVariable (c : StaticContext) (name : ExpandedName) : StaticContext :=
  if name ∈ c.settings.externals then c
  else { c with settings := { c.settings with externals := c.settings.externals ++ [name] } }

def resolveNamespace? (c : StaticContext) (nsPrefix : String) : Option String :=
  c.settings.namespaces.lookup nsPrefix

end StaticContext

structure DynamicContext where
  contextItem : Option Item
  values : List (ExpandedName × List Item)

namespace DynamicContext

def empty : DynamicContext := ⟨none, []⟩

def withVariable (c : DynamicContext) (name : ExpandedName) (value : List Item) : DynamicContext :=
  { c with values := bindKey name value c.values }

end DynamicContext

end XPath
