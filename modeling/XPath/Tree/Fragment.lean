import XPath.Name

/-!
# Trees to be built

A fragment is a tree as it is written down: elements carry their namespace declarations and
attributes, and names still carry prefixes. An attribute may also stand alone, as a root.
-/

namespace XPath

inductive NodeKind where
  | document
  | element
  | attribute
  | text
  | comment
  | instruction
  | namespaceNode
deriving DecidableEq

namespace NodeKind

/-- Attribute and namespace nodes are not children of their owner. -/
def isAttributeLike : NodeKind → Bool
  | .attribute | .namespaceNode => true
  | _ => false

def all : List NodeKind :=
  [.document, .element, .attribute, .text, .comment, .instruction, .namespaceNode]

/-- The short name of the kind. -/
def label : NodeKind → String
  | .document => "document"
  | .element => "element"
  | .attribute => "attribute"
  | .text => "text"
  | .comment => "comment"
  | .instruction => "pi"
  | .namespaceNode => "namespace"

end NodeKind

/-- A namespace declaration; the empty prefix declares the default namespace, and the empty URI takes
a declaration back. -/
structure NamespaceDecl where
  nsPrefix : String
  uri : String
deriving DecidableEq

/-- An attribute as it is written. -/
structure AttributeDecl where
  name : QName
  value : String

inductive Fragment where
  | document (namespaces : List NamespaceDecl) (attributes : List AttributeDecl)
      (children : List Fragment)
  | element (name : QName) (namespaces : List NamespaceDecl) (attributes : List AttributeDecl)
      (children : List Fragment)
  | attribute (a : AttributeDecl)
  | text (value : String)
  | comment (value : String)
  | instruction (target : String) (data : String)

namespace Fragment

def kind : Fragment → NodeKind
  | .document .. => .document
  | .element .. => .element
  | .attribute _ => .attribute
  | .text _ => .text
  | .comment _ => .comment
  | .instruction .. => .instruction

def namespaces : Fragment → List NamespaceDecl
  | .document ns _ _ | .element _ ns _ _ => ns
  | _ => []

def attributes : Fragment → List AttributeDecl
  | .document _ as _ | .element _ _ as _ => as
  | _ => []

def value : Fragment → String
  | .attribute a => a.value
  | .text v | .comment v => v
  | .instruction _ d => d
  | _ => ""

end Fragment

end XPath
