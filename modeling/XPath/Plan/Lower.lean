import XPath.Expr
import XPath.Plan.Program

/-!
# Laying out expressions

Turns an expression into the nodes of a program, children before their parent, and resolves the
prefixes of its names. Several variables of one `for` or quantified expression become nested
expressions of one variable each.
-/

namespace XPath

/-- A program under construction. -/
abbrev Lowering := StateT Program (Except Error)

namespace Lowering

def addNode (form : Form) : Lowering ExprId := do
  let p ← get
  set (p.add form)
  return p.size

def addNodeWith (form : Form) (children : List ExprId) : Lowering ExprId := do
  let (p, r) := (← get).addWith form children
  set p
  r

end Lowering

open Lowering

namespace StaticContext

def resolve (c : StaticContext) (nsPrefix : String) : Except Error String :=
  match c.resolveNamespace? nsPrefix with
  | some uri => .ok uri
  | none => .error (.format .XPST0081 [nsPrefix])

/-- The expanded name of a written one. Without a prefix it is in no namespace. -/
def expand (c : StaticContext) (q : QName) : Except Error ExpandedName :=
  match q.uri, q.nsPrefix with
  | some uri, _ => .ok ⟨some uri, q.localName⟩
  | none, some p =>
    if p.isEmpty then .ok (.unqualified q.localName)
    else do return ⟨some (← c.resolve p), q.localName⟩
  | none, none => .ok (.unqualified q.localName)

def nameTest (c : StaticContext) (q : QName) : Except Error NameTest := do
  let n ← c.expand q
  return ⟨.exactly n.uri, some n.localName⟩

def optionalNameTest (c : StaticContext) : Option QName → Except Error (Option NameTest)
  | none => .ok none
  | some q => some <$> c.nameTest q

def kindTest (c : StaticContext) : WrittenKindTest → Except Error KindTest
  | .anyNode => .ok .anyNode
  | .document => .ok .document
  | .text => .ok .text
  | .comment => .ok .comment
  | .instruction target => .ok (.instruction target)
  | .element q => .element <$> c.optionalNameTest q
  | .attribute q => .attribute <$> c.optionalNameTest q
  | .namespaceNode => .ok .namespaceNode

def nodeTest (c : StaticContext) : WrittenTest → Except Error NodeTest
  | .name q => .name <$> c.nameTest q
  | .anyName => .ok (.name .anyName)
  | .anyLocal p => do return .name ⟨.exactly (some (← c.resolve p)), none⟩
  | .anyNamespace l => .ok (.name ⟨.any, some l⟩)
  | .kind t => .kind <$> c.kindTest t

end StaticContext

def expandName (q : QName) : Lowering ExpandedName := do
  (← get).static.expand q

def expandTest (t : WrittenTest) : Lowering NodeTest := do
  (← get).static.nodeTest t

def Literal.form : Literal → Form
  | integer i => .literal (.integer i)
  | decimal x => .literal (.decimal x)
  | double x => .literal (.double x)
  | string s => .literal (.string s)
  | boolean b => .literal (.boolean b)
  | typed a => .literal a
  | emptySequence => .sequence

def BinaryOp.form : BinaryOp → Form
  | arith op => .arithmetic op
  | and => .and
  | or => .or
  | compare c op => .compare c op
  | union => .union
  | range => .range

/-- The form of a loop over one variable. -/
def loopForm (q : Option Quantifier) (var : ExpandedName) : Form :=
  match q with
  | none => .forEach var none
  | some q => .quantified q var none

/-- A chain under construction with the expressions it refers to, both latest first. -/
structure ChainParts where
  steps : List Step
  children : List ExprId

def ChainParts.push (c : ChainParts) (s : Step) : ChainParts :=
  { c with steps := s :: c.steps }

def ChainParts.pushExpr (c : ChainParts) (s : Step) (e : ExprId) : ChainParts :=
  ⟨s :: c.steps, e :: c.children⟩

/-- The node of a path. Without steps it is its start. -/
def finishPath (start : PathStart) (c : ChainParts) : Lowering ExprId :=
  match c.steps, start with
  | [], .root => addNode .root
  | [], .context => addNode .contextItem
  | [], .expr e => pure e
  | steps, start => addNodeWith (.path ⟨start, steps.reverse, false, true, false⟩) c.children.reverse

mutual

/-- Appends the nodes of an expression; the result is the number of its own node. -/
def lower : Expr → Lowering ExprId
  | .literal l => addNode l.form
  | .contextItem => addNode .contextItem
  | .variable q => do addNode (.variable (← expandName q) none)
  | .call q args => do
    let name ← expandName q
    let ids ← lowerAll args
    addNodeWith (.call name none) ids
  | .sequence items => do addNodeWith .sequence (← lowerAll items)
  | .binary op l r => do
    let l ← lower l
    let r ← lower r
    addNodeWith op.form [l, r]
  | .negate e => do addNodeWith .negate [← lower e]
  | .ifThenElse c t e => do
    let c ← lower c
    let t ← lower t
    let e ← lower e
    addNodeWith .ifThenElse [c, t, e]
  | .forEach bindings body => lowerLoop none bindings (lower body)
  | .quantified q bindings body => lowerLoop (some q) bindings (lower body)
  | .path start steps => do
    let (start, parts) ← lowerStart start
    finishPath start (← lowerSteps steps parts)
  | .filter base predicates => do
    let source ← lower base
    let ids ← lowerAll predicates
    if ids.isEmpty then return source
    addNodeWith (.filter (ids.map .predicate)) (source :: ids)

def lowerAll : List Expr → Lowering (List ExprId)
  | [] => pure []
  | e :: es => do
    let id ← lower e
    return id :: (← lowerAll es)

/-- Nested loops over the variables, around a body. -/
def lowerLoop (q : Option Quantifier) : List VarBinding → Lowering ExprId → Lowering ExprId
  | [], _ => throw (malformed "binding expression without variables")
  | [.mk name source], body => do
    let source ← lower source
    let inner ← body
    addNodeWith (loopForm q (← expandName name)) [source, inner]
  | .mk name source :: rest, body => do
    let source ← lower source
    let inner ← lowerLoop q rest body
    addNodeWith (loopForm q (← expandName name)) [source, inner]

def lowerStart : Start → Lowering (PathStart × ChainParts)
  | .root => pure (.root, ⟨[], []⟩)
  | .rootDescendant => pure (.root, ⟨[.axis .descendantOrSelf (some .anyNode)], []⟩)
  | .relative => pure (.context, ⟨[], []⟩)
  | .expr e => do
    let id ← lower e
    return (.expr id, ⟨[], [id]⟩)

def lowerSteps : List PathStep → ChainParts → Lowering ChainParts
  | [], parts => pure parts
  | .axis axis test predicates :: rest, parts => do
    let test ← expandTest test
    let ids ← lowerAll predicates
    let parts := ids.foldl (fun c e => c.pushExpr (.predicate e) e)
      (parts.push (.axis axis (some test)))
    lowerSteps rest parts
  | .expr e :: rest, parts => do
    let id ← lower e
    lowerSteps rest (parts.pushExpr (.expr id false) id)

end

end XPath
