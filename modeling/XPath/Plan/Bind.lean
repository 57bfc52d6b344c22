import XPath.Plan.Typing

/-!
# Binding

Binding goes once over a program and gives every variable a slot and every call a function, shortens
the chains of paths and filters, decides which paths need a sort, and marks the expressions that depend
on the focus.

External variables have the lowest slots. The slots above them are handed out by depth. Expressions
that run one after the other may use the same depth. An expression that runs while another one is still
being pulled, such as the body of a loop beside its source, a predicate beside what it filters, or an
argument beside the arguments before it, starts above every depth that the other one uses.
-/

namespace XPath

open Power

structure BindState where
  program : Program
  /-- Loop variables in scope, innermost first. -/
  scope : List Binding
  depth : Nat
  maxDepth : Nat

/-- What has been bound stays bound also when binding fails later. -/
abbrev Binder := ExceptT Error (StateM BindState)

/-- The slots that an evaluation needs. -/
structure SlotCounts where
  total : Nat
  external : Nat
deriving DecidableEq

/-- The position that a literal predicate stands for. -/
def Program.literalPosition (p : Program) (e : ExprId) : Option Nat :=
  match p.form? e with
  | some (.literal (.integer i)) => if 1 ≤ i then some i.toInt.toNat else none
  | some (.literal (.decimal x)) | some (.literal (.double x)) =>
    match Decimal.truncate? x with
    | some i => if Decimal.isIntegral x ∧ 1 ≤ i ∧ i < 2 ^ (64 : Nat) then some i.toNat else none
    | none => none
  | _ => none

/-- An expression step must deliver nodes if a later step navigates from them. -/
def markNodesOnly : List Step → List Step
  | [] => []
  | .expr e _ :: rest => .expr e (rest.any (!·.isFilter)) :: markNodesOnly rest
  | s :: rest => s :: markNodesOnly rest

/-- What is known of the nodes a path starts with. -/
def Program.startFacts (p : Program) : PathStart → OrderFacts
  | .context | .root => ⟨true, true, true⟩
  | .expr e =>
    match p.form? e with
    | some (.path _) | some .union => ⟨true, false, false⟩
    | _ => .nothing

/-- The path with its chain shortened and its order decided. -/
def Program.planPath (p : Program) (path : PathPlan) : PathPlan :=
  let steps := markNodesOnly (fuse p.literalPosition path.steps)
  let ordered := isOrdered steps (p.startFacts path.start)
  let fromExpr := match path.start with
    | .expr _ => true
    | _ => false
  { path with
    steps := steps
    ordered := ordered
    sort := !ordered || p.static.settings.alwaysSort
    startNodesOnly := fromExpr && steps.any (!·.isFilter) }

/-- Whether an expression with bound children depends on the focus. What a path or a filter starts
with decides for them, since their predicates and steps have a focus of their own. -/
def Program.dependsOnFocus (p : Program) (e : ExprId) : Bool :=
  let anyChild := (p.children e).any p.isContextSensitive
  match p.form? e with
  | some .contextItem | some .root => true
  | some (.path path) =>
    match path.start with
    | .context | .root => true
    | .expr s => p.isContextSensitive s
  | some (.filter _) => (p.children e).head?.any p.isContextSensitive
  | some (.call _ function) => function.any (·.contextSensitive) || anyChild
  | _ => anyChild

namespace Binder

def program : Binder Program := do
  return (← get).program

def setForm (e : ExprId) (form : Form) : Binder Unit :=
  modify fun s => { s with program := s.program.setForm e form }

def setDepth (d : Nat) : Binder Unit :=
  modify fun s => { s with depth := d, maxDepth := max s.maxDepth d }

/-- The binding of a variable: the innermost loop variable of its name, or an external one. -/
def resolveVariable (name : ExpandedName) : Binder Binding := do
  let s ← get
  match s.scope.find? (·.name = name) with
  | some b => return b
  | none =>
    match s.program.static.settings.externals.findIdx? (· = name) with
    | some slot => return ⟨name, slot, .any⟩
    | none => throw (.format .XPST0008 [name.text])

def resolveCall (name : ExpandedName) (arity : Nat) : Binder FunctionEntry := do
  let c := (← program).static
  match c.functions.resolve name arity c.settings.defaultFunctionNamespace with
  | .ok entry => return entry
  | .error err => throw (err.toError arity)

/-- Binds expressions that run one after the other. -/
def bindEach (bindNode : ExprId → Binder Nat) : List ExprId → Nat → Binder Nat
  | [], reached => return reached
  | c :: cs, reached => do
    let r ← bindNode c
    bindEach bindNode cs (max reached r)

/-- Binds expressions that may be pulled side by side: each starts above those before it. -/
def bindStaggered (bindNode : ExprId → Binder Nat) : List ExprId → Nat → Binder Nat
  | [], reached => return reached
  | c :: cs, reached => do
    let depth := (← get).depth
    setDepth reached
    let r ← bindNode c
    setDepth depth
    bindStaggered bindNode cs (max reached r)

/-- Binds a loop. The variable's slot lies above what the source uses. -/
def bindLoop (bindNode : ExprId → Binder Nat) (e : ExprId) (var : ExpandedName)
    (form : Binding → Form) : List ExprId → Binder Nat
  | [source, body] => do
    let used ← bindNode source
    let p ← program
    let binding : Binding := ⟨var, p.static.settings.externals.length + used, p.itemType source⟩
    setForm e (form binding)
    let s ← get
    set { s with scope := binding :: s.scope, depth := used + 1,
                 maxDepth := max s.maxDepth (used + 1) }
    let reached ← bindNode body
    modify fun t => { t with scope := s.scope, depth := s.depth }
    return reached
  | _ => throw (malformed "binding expression needs a source and a body")

def bindForm (bindNode : ExprId → Binder Nat) (e : ExprId) : Binder Nat := do
  let p ← program
  let children := p.children e
  let depth := (← get).depth
  match p.form? e with
  | some (.forEach var _) => bindLoop bindNode e var (fun b => .forEach var (some b)) children
  | some (.quantified q var _) =>
    bindLoop bindNode e var (fun b => .quantified q var (some b)) children
  | some (.variable name _) => do
    setForm e (.variable name (some (← resolveVariable name)))
    return depth
  | some (.call name _) => do
    let reached ← bindStaggered bindNode children depth
    setForm e (.call name (some (← resolveCall name children.length)))
    return reached
  | some (.path path) => do
    let reached ← bindStaggered bindNode children depth
    setForm e (.path ((← program).planPath path))
    return reached
  | some (.filter steps) => do
    let reached ← bindStaggered bindNode children depth
    setForm e (.filter (fuse (← program).literalPosition steps))
    return reached
  | _ => bindEach bindNode children depth

/-- Marks a node as bound. -/
def finish (e : ExprId) : Binder Unit :=
  modify fun s =>
    { s with program := s.program.modify e fun n =>
        { n with contextSensitive := s.program.dependsOnFocus e, bound := true } }

/-- Binds a node and all below it, at most `fuel` levels deep. The result is the highest depth in use
while the node runs. -/
def bindNode : Nat → ExprId → Binder Nat
  | 0, _ => throw (malformed "expression contains itself")
  | fuel + 1, e => do
    let reached ← bindForm (bindNode fuel) e
    finish e
    return reached

end Binder

/-- Binds an expression of a program. -/
def Program.bind (p : Program) (root : ExprId) : Program × Except Error SlotCounts :=
  let (r, s) := (Binder.bindNode p.size root).run.run ⟨p, [], 0, 0⟩
  let external := p.static.settings.externals.length
  (s.program, r.map fun _ => ⟨external + s.maxDepth, external⟩)

end XPath
