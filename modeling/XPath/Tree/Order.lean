import XPath.Tree.Node

/-!
# Document order

Nodes are ordered by their document, then by their entry, and the namespace nodes of an element come
right after it. Sorting is stable; nodes at one place are then neighbours, so dropping neighbours that
are the same leaves each node once.
-/

namespace XPath

namespace Node

/-- Document, entry, and the rank among the namespace nodes of the entry. -/
def orderKey (n : Node) : Nat × Nat × Nat :=
  match n.place with
  | .entry i => (n.doc.id, i, 0)
  | .namespaceOf owner i => (n.doc.id, owner, i + 1)

def compareKeys (a b : Nat × Nat × Nat) : Ordering :=
  (Ord.compare a.1 b.1).then ((Ord.compare a.2.1 b.2.1).then (Ord.compare a.2.2 b.2.2))

def compare (a b : Node) : Ordering :=
  compareKeys a.orderKey b.orderKey

def precedesOrSame (a b : Node) : Bool :=
  (a.compare b).isLE

end Node

/-- Keeps a node only if it is not at the place of the one kept before it. -/
def dropRepeats : List Node → List Node
  | [] => []
  | [a] => [a]
  | a :: b :: rest =>
    if a.samePlace b then dropRepeats (a :: rest) else a :: dropRepeats (b :: rest)

/-- The nodes in document order, optionally each one once. -/
def inDocumentOrder (unique : Bool) (nodes : List Node) : List Node :=
  let sorted := nodes.mergeSort Node.precedesOrSame
  if unique then dropRepeats sorted else sorted

end XPath
