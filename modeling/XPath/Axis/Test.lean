import XPath.Tree.Node

/-!
# Node tests

A node test accepts a node by its name or by its kind. A name test also asks for the principal kind of
the axis it is used on. Tests show themselves in the form they are written in, with namespaces
expanded.
-/

namespace XPath

/-- The namespace part of a name test. -/
inductive NamespaceTest where
  | any
  | exactly (uri : Option String)
deriving DecidableEq

/-- A name test; without a local name it accepts every local name. -/
structure NameTest where
  ns : NamespaceTest
  localName : Option String
deriving DecidableEq

namespace NameTest

def anyName : NameTest := ⟨.any, none⟩

/-- A namespace URI that is empty counts as none. -/
def accepts (t : NameTest) (n : Node) : Bool :=
  t.localName.all (n.localName == ·) &&
    match t.ns with
    | .any => true
    | .exactly uri => n.uri.filter (!·.isEmpty) == uri

def written (t : NameTest) : String :=
  let ns := match t.ns with
    | .any => if t.localName.isSome then "*:" else ""
    | .exactly (some uri) => "Q\x7b" ++ uri ++ "\x7d"
    | .exactly none => ""
  ns ++ t.localName.getD "*"

end NameTest

inductive KindTest where
  | anyNode
  | document
  | element (name : Option NameTest)
  | attribute (name : Option NameTest)
  | text
  | comment
  | instruction (target : Option String)
  | namespaceNode
deriving DecidableEq

namespace KindTest

/-- The kind that every accepted node has, unless all kinds are accepted. -/
def kind? : KindTest → Option NodeKind
  | .anyNode => none
  | .document => some .document
  | .element _ => some .element
  | .attribute _ => some .attribute
  | .text => some .text
  | .comment => some .comment
  | .instruction _ => some .instruction
  | .namespaceNode => some .namespaceNode

def accepts (t : KindTest) (n : Node) : Bool :=
  t.kind?.all (n.kind = ·) &&
    match t with
    | .element name | .attribute name => name.all (·.accepts n)
    | .instruction target => target.all (n.localName == ·)
    | _ => true

def written : KindTest → String
  | .anyNode => "node()"
  | .document => "document-node()"
  | .element name => "element(" ++ name.elim "" NameTest.written ++ ")"
  | .attribute name => "attribute(" ++ name.elim "" NameTest.written ++ ")"
  | .text => "text()"
  | .comment => "comment()"
  | .instruction target => "processing-instruction(" ++ target.getD "" ++ ")"
  | .namespaceNode => "namespace-node()"

end KindTest

inductive NodeTest where
  | name (t : NameTest)
  | kind (t : KindTest)
deriving DecidableEq

namespace NodeTest

def anyNode : NodeTest := .kind .anyNode

def isAnyNode : NodeTest → Bool
  | kind .anyNode => true
  | _ => false

/-- Whether the test accepts a node on an axis with the given principal kind. -/
def accepts (t : NodeTest) (n : Node) (principal : NodeKind) : Bool :=
  match t with
  | name t => n.kind == principal && t.accepts n
  | kind t => t.accepts n

/-- The kind that every accepted node has, if the test settles one. -/
def kind? (t : NodeTest) (principal : NodeKind) : Option NodeKind :=
  match t with
  | name _ => some principal
  | kind t => t.kind?

def written : NodeTest → String
  | name t => t.written
  | kind t => t.written

end NodeTest

end XPath
