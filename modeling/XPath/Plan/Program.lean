import XPath.Plan.Step
import XPath.Static

/-!
# Programs

A program is an expression laid out in an array of nodes that refer to each other by number, together
with the static context it was compiled against. Nodes are appended and then attached to a parent; a
node has at most one. Binding fills in variables, functions, chains and flags afterwards.
-/

namespace XPath

/-- A variable that has been given a slot. -/
structure Binding where
  name : ExpandedName
  slot : Nat
  itemType : ResultType

/-- Where a compiled path starts. -/
inductive PathStart where
  | context
  | root
  | expr (e : ExprId)

structure PathPlan where
  start : PathStart
  steps : List Step
  /-- Known to deliver document order without repeats. -/
  ordered : Bool
  /-- Sort the result. -/
  sort : Bool
  /-- Refuse atomic values from the start expression. -/
  startNodesOnly : Bool

/-- What a node computes from its children. -/
inductive Form where
  | literal (a : AtomicValue)
  | contextItem
  | root
  | variable (name : ExpandedName) (binding : Option Binding)
  /-- The children are the arguments. -/
  | call (name : ExpandedName) (function : Option FunctionEntry)
  | path (p : PathPlan)
  /-- The first child is the source; the chain holds filters. -/
  | filter (steps : List Step)
  | arithmetic (op : ArithOp)
  | negate
  | and
  | or
  | compare (c : Comparison) (op : CompOp)
  /-- Condition, then, else. -/
  | ifThenElse
  /-- Source and body. -/
  | forEach (var : ExpandedName) (binding : Option Binding)
  | quantified (q : Quantifier) (var : ExpandedName) (binding : Option Binding)
  | sequence
  | range
  | union

def Form.label : Form → String
  | .literal _ => "literal"
  | .contextItem => "context-item"
  | .root => "root"
  | .variable _ _ => "variable"
  | .call _ _ => "function-call"
  | .path _ => "path"
  | .filter _ => "filter"
  | .arithmetic _ => "arithmetic"
  | .negate => "negate"
  | .and => "and"
  | .or => "or"
  | .compare _ _ => "comparison"
  | .ifThenElse => "if"
  | .forEach _ _ => "for"
  | .quantified _ _ _ => "quantified"
  | .sequence => "sequence"
  | .range => "range"
  | .union => "union"

structure ExprNode where
  form : Form
  children : List ExprId
  parent : Option ExprId
  contextSensitive : Bool
  bound : Bool

def malformed (what : String) : Error :=
  .format .XPST0003 [what]

structure Program where
  static : StaticContext
  nodes : Array ExprNode

namespace Program

def empty (static : StaticContext) : Program :=
  ⟨static, #[]⟩

def size (p : Program) : Nat :=
  p.nodes.size

def form? (p : Program) (e : ExprId) : Option Form :=
  (p.nodes[e]?).map (·.form)

def children (p : Program) (e : ExprId) : List ExprId :=
  (p.nodes[e]?).elim [] (·.children)

def parent? (p : Program) (e : ExprId) : Option ExprId :=
  (p.nodes[e]?).bind (·.parent)

def isContextSensitive (p : Program) (e : ExprId) : Bool :=
  (p.nodes[e]?).any (·.contextSensitive)

def isBound (p : Program) (e : ExprId) : Bool :=
  (p.nodes[e]?).any (·.bound)

def modify (p : Program) (e : ExprId) (f : ExprNode → ExprNode) : Program :=
  { p with nodes := p.nodes.modify e f }

def setForm (p : Program) (e : ExprId) (form : Form) : Program :=
  p.modify e fun n => { n with form := form }

/-- Appends a node without children; its number is the size before. -/
def add (p : Program) (form : Form) : Program :=
  { p with nodes := p.nodes.push ⟨form, [], none, false, false⟩ }

/-- Makes a node the last child of another, in place. A node has at most one parent. -/
def link (p : Program) (parent child : ExprId) : Program × Except Error Unit :=
  if parent = child ∨ p.size ≤ child ∨ p.size ≤ parent then
    (p, .error (malformed ("invalid attachment of node " ++ Text.natText child)))
  else
    match p.parent? child with
    | some other =>
      (p, .error (malformed
        ("node " ++ Text.natText child ++ " already attached to node " ++ Text.natText other)))
    | none =>
      let p := p.modify child fun n => { n with parent := some parent }
      (p.modify parent fun n => { n with children := n.children ++ [child] }, .ok ())

/-- The program with the new link, unless it is refused. -/
def attach (p : Program) (parent child : ExprId) : Except Error Program :=
  (p.link parent child).2.map fun _ => (p.link parent child).1

/-- Attaches nodes in order. After a failure the attachments before it remain. -/
def attachAll (parent : ExprId) : List ExprId → Program → Program × Except Error Unit
  | [], p => (p, .ok ())
  | c :: cs, p =>
    match p.link parent c with
    | (p, .ok _) => attachAll parent cs p
    | (p, .error e) => (p, .error e)

/-- Appends a node and attaches children to it. The node stays also when that fails. -/
def addWith (p : Program) (form : Form) (children : List ExprId) :
    Program × Except Error ExprId :=
  let e := p.size
  let (p, r) := attachAll e children (p.add form)
  (p, r.map fun _ => e)

end Program

end XPath
