import XPath.Tree.Fragment

/-!
# Documents

A document holds its nodes in one array, in pre-order: a node, then its attributes, then the subtrees
of its children. Namespace nodes are not stored; the namespaces in scope at an element are computed
from the declarations on it and above it, the nearest declaration of a prefix deciding.

Two lookups of a prefix meet here. While a document is built, names are resolved against the stack of
open declarations (`resolvePrefix`); afterwards `Document.inScope` walks up from an element.
-/

namespace XPath

structure NodeData where
  kind : NodeKind
  name : Option QName
  value : String
  parent : Option Nat
  /-- Index among the parent's children, or among its attributes. -/
  siblingIndex : Nat
  children : Array Nat
  attributes : Array Nat
  namespaces : List NamespaceDecl

/-- Documents are ordered by their number. -/
structure Document where
  id : Nat
  nodes : Array NodeData

/-! ## Building -/

/-- The namespace of a prefix under a stack of declarations, innermost first. -/
def resolvePrefix (p : String) (scopes : List (List NamespaceDecl)) : Option String :=
  if p = "xml" then some xmlNamespace
  else
    match scopes.flatten.find? (fun d => d.nsPrefix == p) with
    | some d => if d.uri.isEmpty then none else some d.uri
    | none => none

/-- An element's name takes the default namespace when it has no prefix. -/
def resolveElementName (scopes : List (List NamespaceDecl)) (q : QName) : QName :=
  { q with uri := resolvePrefix (q.nsPrefix.getD "") scopes }

/-- An attribute's name without a prefix is in no namespace. -/
def resolveAttributeName (scopes : List (List NamespaceDecl)) (q : QName) : QName :=
  match q.nsPrefix with
  | some p => { q with uri := resolvePrefix p scopes }
  | none => q

def Fragment.resolvedName (scopes : List (List NamespaceDecl)) : Fragment → Option QName
  | .element q _ _ _ => some (resolveElementName scopes q)
  | .attribute a => some a.name
  | .instruction target _ => some (.unprefixed target)
  | _ => none

/-- The attribute nodes of the node at `owner`, in order. -/
def attributeNodes (scopes : List (List NamespaceDecl)) (owner : Nat) :
    Nat → List AttributeDecl → List NodeData
  | _, [] => []
  | k, a :: as =>
    { kind := .attribute, name := some (resolveAttributeName scopes a.name), value := a.value,
      parent := some owner, siblingIndex := k, children := #[], attributes := #[],
      namespaces := [] } :: attributeNodes scopes owner (k + 1) as

mutual

/-- Appends the nodes of a fragment. The node itself is appended without its children, which are
entered once their places are known. -/
def Fragment.flatten (scopes : List (List NamespaceDecl)) (parent : Option Nat) (index : Nat) :
    Fragment → Array NodeData → Array NodeData
  | f, nodes =>
    let scopes := f.namespaces :: scopes
    let here := nodes.size
    let count := f.attributes.length
    let node : NodeData :=
      { kind := f.kind, name := f.resolvedName scopes, value := f.value, parent := parent,
        siblingIndex := index, children := #[],
        attributes := (List.range count).toArray.map (here + 1 + ·),
        namespaces := f.namespaces }
    let nodes := nodes.push node ++ attributeNodes scopes here 0 f.attributes
    match f with
    | .document _ _ children | .element _ _ _ children =>
      let (nodes, places) := Fragment.flattenAll scopes here 0 children nodes #[]
      nodes.modify here fun d => { d with children := places }
    | _ => nodes

/-- Appends the fragments one after the other and collects their places. -/
def Fragment.flattenAll (scopes : List (List NamespaceDecl)) (parent : Nat) (index : Nat) :
    List Fragment → Array NodeData → Array Nat → Array NodeData × Array Nat
  | [], nodes, places => (nodes, places)
  | f :: fs, nodes, places =>
    let place := nodes.size
    let nodes := Fragment.flatten scopes (some parent) index f nodes
    Fragment.flattenAll scopes parent (index + 1) fs nodes (places.push place)

end

/-- The document of a fragment. -/
def Document.build (id : Nat) (f : Fragment) : Document :=
  ⟨id, f.flatten [] none 0 #[]⟩

namespace Document

def size (d : Document) : Nat :=
  d.nodes.size

def isEmpty (d : Document) : Bool :=
  d.nodes.isEmpty

/-! ## Namespaces in scope -/

/-- Adds declarations, those nearer first; a prefix seen before is passed over. `seen` holds the
prefixes met so far, also those that were taken back. -/
def addDecls : List NamespaceDecl → List String → List NamespaceDecl →
    List String × List NamespaceDecl
  | [], seen, found => (seen, found)
  | d :: ds, seen, found =>
    if d.nsPrefix ∈ seen then addDecls ds seen found
    else addDecls ds (d.nsPrefix :: seen) (if d.uri.isEmpty then found else found ++ [d])

/-- Walks up from a node, at most `fuel` levels. -/
def declsUp (d : Document) : Nat → Option Nat → List String → List NamespaceDecl →
    List String × List NamespaceDecl
  | fuel + 1, some i, seen, found =>
    match d.nodes[i]? with
    | some node =>
      let (seen, found) := addDecls node.namespaces seen found
      declsUp d fuel node.parent seen found
    | none => (seen, found)
  | _, _, seen, found => (seen, found)

/-- The namespaces in scope at an element, nearest declaration first. The reserved prefix comes last,
unless it was declared. -/
def inScope (d : Document) (element : Nat) : List NamespaceDecl :=
  let (seen, found) := declsUp d d.size (some element) [] []
  if "xml" ∈ seen then found else found ++ [⟨"xml", xmlNamespace⟩]

/-! ## String value -/

/-- The text below a node, at most `fuel` levels deep. -/
def textBelow (d : Document) : Nat → Nat → String
  | 0, _ => ""
  | fuel + 1, i =>
    match d.nodes[i]? with
    | some node =>
      node.children.foldl (fun s c => s ++ textBelow d fuel c)
        (if node.kind = .text then node.value else "")
    | none => ""

end Document

end XPath
