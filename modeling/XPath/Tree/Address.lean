import XPath.Tree.Node

/-!
# Addresses of nodes

The address of a node is the way to it from the root: a child or an attribute by its number, or a
namespace node by its number among those in scope.
-/

namespace XPath

inductive Turn where
  | child (k : Nat)
  | attribute (k : Nat)
  | namespaceNode (k : Nat)

def Turn.text : Turn → String
  | .child k => "/" ++ Text.natText k
  | .attribute k => "/@" ++ Text.natText k
  | .namespaceNode k => "/#" ++ Text.natText k

def Turn.ofText? (s : String) : Option Turn :=
  match s.toList with
  | '@' :: cs => (Text.readNat? cs).map .attribute
  | '#' :: cs => (Text.readNat? cs).map .namespaceNode
  | cs => (Text.readNat? cs).map .child

namespace Node

def turn? (n : Node) : Turn → Option Node
  | .child k => (n.data?.bind (·.children[k]?)).map n.entryAt
  | .attribute k => (n.data?.bind (·.attributes[k]?)).map n.entryAt
  | .namespaceNode k =>
    match n.place with
    | .entry i => if k < (n.doc.inScope i).length then some ⟨n.doc, .namespaceOf i k⟩ else none
    | .namespaceOf _ _ => none

/-- The node at an address, written as steps after slashes. -/
def ofAddress? (d : Document) (s : String) : Option Node :=
  ((s.splitOn "/").filter (!·.isEmpty)).foldlM
    (fun n step => (Turn.ofText? step).bind n.turn?) (rootOf d)

/-- The turn that leads to a node from its parent. -/
def lastTurn? (n : Node) : Option Turn :=
  match n.place with
  | .namespaceOf _ k => some (.namespaceNode k)
  | .entry _ => do
    let d ← n.data?
    let _ ← d.parent
    return if d.kind = .attribute then .attribute d.siblingIndex else .child d.siblingIndex

def turnsFrom : Nat → Node → List Turn → List Turn
  | 0, _, acc => acc
  | fuel + 1, n, acc =>
    match n.lastTurn?, n.parent? with
    | some t, some p => turnsFrom fuel p (t :: acc)
    | _, _ => acc

/-- The address of a node; the root's is a slash. -/
def address (n : Node) : String :=
  match turnsFrom (n.doc.size + 1) n [] with
  | [] => "/"
  | ts => String.join (ts.map Turn.text)

end Node

end XPath
