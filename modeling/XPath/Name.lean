/-!
# Names

An expanded name is a local part with an optional namespace URI; two names are the same exactly when
both parts are. A lexical name still carries the prefix it was written with, and its namespace once
that prefix has been resolved.
-/

namespace XPath

/-- Namespace of the error codes. -/
def errorNamespace : String := "http://www.w3.org/2005/xqt-errors"

/-- Namespace of the core functions. -/
def functionNamespace : String := "http://www.w3.org/2005/xpath-functions"

/-- Namespace that the reserved prefix `xml` is always bound to. -/
def xmlNamespace : String := "http://www.w3.org/XML/1998/namespace"

/-- The one collation: comparison by code points. -/
def codepointCollation : String := "http://www.w3.org/2005/xpath-functions/collation/codepoint"

structure ExpandedName where
  uri : Option String
  localName : String
deriving DecidableEq

namespace ExpandedName

/-- A name in no namespace. -/
def unqualified (localName : String) : ExpandedName :=
  ⟨none, localName⟩

/-- `Q{uri}local`, or the local part alone without a namespace. -/
def text (n : ExpandedName) : String :=
  match n.uri with
  | some uri => "Q\x7b" ++ uri ++ "\x7d" ++ n.localName
  | none => n.localName

end ExpandedName

structure QName where
  nsPrefix : Option String
  localName : String
  uri : Option String
deriving DecidableEq

namespace QName

def unprefixed (localName : String) : QName :=
  ⟨none, localName, none⟩

def prefixed (nsPrefix localName : String) : QName :=
  ⟨some nsPrefix, localName, none⟩

/-- Splits a written name at its first colon. -/
def ofText (s : String) : QName :=
  let cs := s.toList
  match cs.dropWhile (· != ':') with
  | [] => unprefixed s
  | _ :: rest => prefixed (String.ofList (cs.takeWhile (· != ':'))) (String.ofList rest)

/-- `prefix:local`, or the local part alone when the prefix is missing or empty. -/
def text (q : QName) : String :=
  match q.nsPrefix with
  | some p => if p.isEmpty then q.localName else p ++ ":" ++ q.localName
  | none => q.localName

end QName

end XPath
