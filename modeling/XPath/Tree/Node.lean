import XPath.Atomic.Value
import XPath.Tree.Document

/-!
# Nodes and moves

A node is a place in a document: an entry of its array, or a namespace in scope at an element. Moves
lead from a node to a neighbour and are partial; `following?` is the next node in document order.
Loops that climb or descend are bounded by the size of the document.
-/

namespace XPath

inductive Place where
  | entry (index : Nat)
  | namespaceOf (owner : Nat) (index : Nat)
deriving DecidableEq

structure Node where
  doc : Document
  place : Place

namespace Node

/-- The root of a document. -/
def rootOf (d : Document) : Node :=
  ⟨d, .entry 0⟩

def data? (n : Node) : Option NodeData :=
  match n.place with
  | .entry i => n.doc.nodes[i]?
  | .namespaceOf _ _ => none

/-- The declaration behind a namespace node. -/
def declaration? (n : Node) : Option NamespaceDecl :=
  match n.place with
  | .entry _ => none
  | .namespaceOf owner i => (n.doc.inScope owner)[i]?

/-! ## Properties -/

def kind (n : Node) : NodeKind :=
  match n.data? with
  | some d => d.kind
  | none => .namespaceNode

def localName (n : Node) : String :=
  match n.place with
  | .entry _ => (n.data?.bind (·.name)).elim "" (·.localName)
  | .namespaceOf _ _ => n.declaration?.elim "" (·.nsPrefix)

def uri (n : Node) : Option String :=
  (n.data?.bind (·.name)).bind (·.uri)

def nsPrefix (n : Node) : Option String :=
  (n.data?.bind (·.name)).bind (·.nsPrefix)

/-- The name of an element, attribute, processing instruction or namespace node. -/
def name (n : Node) : Option QName :=
  match n.kind with
  | .element | .attribute | .instruction | .namespaceNode =>
    some ⟨n.nsPrefix, n.localName, n.uri⟩
  | _ => none

/-- The string value. -/
def value (n : Node) : String :=
  match n.place with
  | .entry i =>
    match n.data? with
    | some d =>
      match d.kind with
      | .element | .document => n.doc.textBelow n.doc.size i
      | _ => d.value
    | none => ""
  | .namespaceOf _ _ => n.declaration?.elim "" (·.uri)

/-- The atomic value of a node. -/
def typedValue (n : Node) : AtomicValue :=
  match n.kind with
  | .comment | .instruction | .namespaceNode => .string n.value
  | _ => .untypedAtomic n.value

/-! ## Moves -/

def entryAt (n : Node) (i : Nat) : Node :=
  ⟨n.doc, .entry i⟩

def parent? (n : Node) : Option Node :=
  match n.place with
  | .entry _ => (n.data?.bind (·.parent)).map n.entryAt
  | .namespaceOf owner _ => some (n.entryAt owner)

def firstChild? (n : Node) : Option Node :=
  (n.data?.bind (·.children[0]?)).map n.entryAt

def lastChild? (n : Node) : Option Node :=
  (n.data?.bind (·.children.back?)).map n.entryAt

/-- The children of the parent, for a node that is one of them. -/
def siblings? (n : Node) : Option (Array Nat × Nat) := do
  let d ← n.data?
  let p ← d.parent
  let parent ← n.doc.nodes[p]?
  if d.kind = .attribute then none else some (parent.children, d.siblingIndex)

def nextSibling? (n : Node) : Option Node := do
  let (children, i) ← n.siblings?
  (children[i + 1]?).map n.entryAt

def previousSibling? (n : Node) : Option Node := do
  let (children, i) ← n.siblings?
  match i with
  | 0 => none
  | k + 1 => (children[k]?).map n.entryAt

def firstAttribute? (n : Node) : Option Node :=
  (n.data?.bind (·.attributes[0]?)).map n.entryAt

def nextAttribute? (n : Node) : Option Node := do
  let d ← n.data?
  if d.kind = .attribute then
    let parent ← d.parent.bind (n.doc.nodes[·]?)
    (parent.attributes[d.siblingIndex + 1]?).map n.entryAt
  else none

/-- The first namespace node; every element has one. -/
def firstNamespace? (n : Node) : Option Node :=
  match n.place, n.kind with
  | .entry i, .element => some ⟨n.doc, .namespaceOf i 0⟩
  | _, _ => none

def nextNamespace? (n : Node) : Option Node :=
  match n.place with
  | .namespaceOf owner i =>
    if i + 1 < (n.doc.inScope owner).length then some ⟨n.doc, .namespaceOf owner (i + 1)⟩ else none
  | .entry _ => none

/-! ## Walks over the tree -/

/-- Climbs at most `fuel` levels. -/
def topFrom : Nat → Node → Node
  | 0, n => n
  | fuel + 1, n =>
    match n.parent? with
    | some p => topFrom fuel p
    | none => n

/-- The root of the node's tree. -/
def root (n : Node) : Node :=
  topFrom (n.doc.size + 1) n

/-- The next sibling of the node or of the nearest ancestor that has one. -/
def nextAbove : Nat → Node → Option Node
  | 0, _ => none
  | fuel + 1, n =>
    match n.nextSibling? with
    | some m => some m
    | none => n.parent?.bind (nextAbove fuel)

/-- The first node after the subtree of the node. -/
def afterSubtree? (n : Node) : Option Node :=
  nextAbove (n.doc.size + 1) n

/-- The next node in document order, attributes and namespaces left out. -/
def next? (n : Node) : Option Node :=
  match n.firstChild? with
  | some c => some c
  | none => n.afterSubtree?

def samePlace (a b : Node) : Bool :=
  a.doc.id == b.doc.id && a.place == b.place

/-- Goes on in document order to a node of the kind, but not to the boundary or past it. -/
def followingFrom (kind : Option NodeKind) (boundary : Option Node) : Nat → Node → Option Node
  | 0, _ => none
  | fuel + 1, n =>
    match n.next? with
    | none => none
    | some m =>
      if boundary.any m.samePlace then none
      else if kind.all (m.kind = ·) then some m
      else followingFrom kind boundary fuel m

/-- The next node of a kind in document order, before the boundary. From an attribute or namespace
node the search begins with the content of its owner. -/
def following? (n : Node) (kind : Option NodeKind) (boundary : Option Node) : Option Node :=
  let fuel := n.doc.size + 1
  if n.kind.isAttributeLike then n.parent?.bind (followingFrom kind boundary fuel)
  else followingFrom kind boundary fuel n

end Node

end XPath
