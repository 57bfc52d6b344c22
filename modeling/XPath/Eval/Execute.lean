import XPath.Eval.Machine

/-!
# Executing expressions

What every form of expression computes from a focus and the slots. Sequences stay lazy where the form
allows it: paths, filters, loops, ranges and sequences become cursors that are pulled later.
-/

namespace XPath

def unbound (what : String) : Error :=
  malformed (what ++ " was not bound")

/-- The node whose tree an absolute path starts from. -/
def Focus.root (focus : Focus) : Except Error Node :=
  match focus.item? with
  | some (.node n) => .ok n.root
  | some (.atomic _) => .error (.format .XPTY0020 ["root"])
  | none => .error missingContext

def Focus.requireItem (focus : Focus) : Except Error Item :=
  match focus.item? with
  | some item => .ok item
  | none => .error missingContext

/-! ## Operands -/

/-- An operand of arithmetic; untyped text is read as a double. -/
def numericOperand : AtomicValue → Except Error AtomicValue
  | .untypedAtomic s => castUntyped s .double
  | a => .ok a

/-- An operand of a value comparison; untyped text is a string. -/
def comparedOperand : AtomicValue → AtomicValue
  | .untypedAtomic s => .string s
  | a => a

/-- Failures of arithmetic are type errors of the operator, caused by what failed. -/
def arithmeticFailure (e : Error) : Error :=
  match e.errorCode with
  | .FOAR0001 | .FOAR0002 =>
    (Error.ofCode .XPTY0004 ("arithmetic operation failed: " ++ e.message)).withCause e
  | _ => e

/-- An integer within the bounds of the type, at the nearest bound if it lies outside. -/
def clampInt64 (i : Int) : Int64 :=
  if i < Int64.minValue.toInt then .minValue
  else if Int64.maxValue.toInt < i then .maxValue
  else .ofInt i

/-- A bound of a range. -/
def rangeBound (a : AtomicValue) : Except Error Int64 :=
  let refused : Except Error Int64 :=
    .error (.format .XPTY0004 ["range bound must be an integer, got " ++ a.typeName])
  match a with
  | .integer i => .ok i
  | .untypedAtomic s =>
    match Text.readInt64? (Text.trimChars s.toList) with
    | some i => .ok i
    | none => .error (.format .FORG0001 [s, "xs:integer"])
  | .decimal x | .double x =>
    match Decimal.truncate? x with
    | some i => if Decimal.isIntegral x then .ok (clampInt64 i) else refused
    | none => refused
  | _ => refused

def optionalBound (a : Option AtomicValue) : Except Error (Option Int64) :=
  a.mapM rangeBound

/-- The nodes of a union's operand. -/
def unionNodes : List Item → Except Error (List Node)
  | [] => .ok []
  | .node n :: rest => do return n :: (← unionNodes rest)
  | .atomic a :: _ => .error (.format .XPTY0004 ["union operand contains " ++ a.typeName])

namespace Calls

/-! ## Functions -/

/-- Does what a function asks for. Arguments and their copies are numbered. -/
def runScript (m : Calls) (focus : Focus) : Script Reply → Array Cursor → Eval Cursor
  | .done (.items items), _ => return .ofItems items
  | .done (.argument i), args => return (args[i]?).getD .empty
  | .raise e, _ => throw e
  | .exhausted, _ => ExceptT.lift outOfFuel
  | .advance i k, args => do
    let (c, r) ← m.next ((args[i]?).getD .empty)
    m.runScript focus (k r) (args.setIfInBounds i c)
  | .current i k, args => m.runScript focus (k ((args[i]?).bind Cursor.current)) args
  | .take i limit k, args => do
    let (c, r) ← m.takeWith limit ((args[i]?).getD .empty)
    m.runScript focus (k r) (args.setIfInBounds i c)
  | .drain i k, args => do
    let (c, r) ← m.drainWith ((args[i]?).getD .empty)
    m.runScript focus (k r) (args.setIfInBounds i c)
  | .fork i k, args => do
    let c ← m.clone ((args[i]?).getD .empty)
    m.runScript focus (k args.size) (args.push c)
  | .contextItem k, args => m.runScript focus (k focus.item?) args
  | .position k, args => m.runScript focus (k focus.position) args
  | .last k, args => do
    let r ← ExceptT.lift (m.last focus).run
    m.runScript focus (k r) args

/-! ## Parts of expressions -/

def executeAll (m : Calls) (focus : Focus) : List ExprId → Eval (List Cursor)
  | [] => return []
  | e :: es => do
    let c ← m.execute e focus
    return c :: (← m.executeAll focus es)

/-- The value of an operand that is at most one atomic value. -/
def operand (m : Calls) (focus : Focus) (what : String) (e : ExprId) : Eval (Option AtomicValue) := do
  atomizeOptional what (← m.firstTwo (← m.execute e focus))

def condition (m : Calls) (focus : Focus) (e : ExprId) : Eval Bool := do
  effectiveBoolean (← m.firstTwo (← m.execute e focus))

/-- Compares an item of the left side with the items of the right side from number `i` on. -/
def compareRow (m : Calls) (op : CompOp) (a : AtomicValue) :
    Nat → Nat → Cache → Eval (Cache × Bool)
  | 0, _, _ => ExceptT.lift outOfFuel
  | fuel + 1, i, right => do
    let (right, r) ← m.fetch i m.fuel right
    match ← r with
    | none => return (right, false)
    | some item =>
      if ← generalCompare op a item.typedValue then return (right, true)
      else m.compareRow op a fuel (i + 1) right

/-- Row by row, until a pair decides. The right side is computed once. -/
def compareRows (m : Calls) (op : CompOp) : List Item → Cache → Eval Bool
  | [], _ => return false
  | item :: rest, right => do
    let (right, decided) ← m.compareRow op item.typedValue m.fuel 0 right
    if decided then return true else m.compareRows op rest right

/-- Whether the body's truth differs from `usual` for some item of the source. -/
def deviates (m : Calls) (focus : Focus) (binding : Binding) (body : ExprId) (usual : Bool) :
    Nat → Cursor → Eval Bool
  | 0, _ => ExceptT.lift outOfFuel
  | fuel + 1, source => do
    let (source, r) ← m.next source
    if ← r then
      match source.current with
      | none => m.deviates focus binding body usual fuel source
      | some item => do
        let value ← m.vars.iterate binding item focus (m.execute body)
        let b ← effectiveBoolean (← m.firstTwo value)
        if b != usual then return true else m.deviates focus binding body usual fuel source
    else return false

def union (m : Calls) (focus : Focus) : List ExprId → Eval (List Node)
  | [] => return []
  | e :: es => do
    let nodes ← unionNodes (← m.drain (← m.execute e focus))
    return nodes ++ (← m.union focus es)

/-- A step on top of the cursor it starts from. -/
def instantiate (perGroup : Bool) (input : Cursor) : Step → Cursor
  | .axis axis test => .along axis (test.getD .anyNode) input
  | .descent tests => .descending tests input
  | .position n => .pick n perGroup input
  | .predicate e => .filter e input
  | .expr e nodesOnly => if nodesOnly then .requireNodes (.through e input) else .through e input

/-- A chain on top of the cursor it starts from. In a path, positions count per group. -/
def chain (perGroup : Bool) (input : Cursor) (steps : List Step) : Cursor :=
  steps.foldl (instantiate perGroup) input

def path (m : Calls) (focus : Focus) (unique : Bool) (path : PathPlan) : Eval Cursor := do
  let start ← match path.start with
    | .context => do pure (.ofItem (← focus.requireItem))
    | .root => do pure (.ofItem (.node (← focus.root)))
    | .expr e => do
      let c ← m.execute e focus
      pure (if path.startNodesOnly then .requireNodes c else c)
  let result := chain true start path.steps
  return if path.sort then .inOrder unique result else result

/-! ## All forms -/

/-- The child of a node at a place. -/
def childAt (children : List ExprId) (i : Nat) : Except Error ExprId :=
  match children[i]? with
  | some e => .ok e
  | none => .error (unbound "operand")

def bound {α : Type} (what : String) : Option α → Except Error α
  | some a => .ok a
  | none => .error (unbound what)

def arithmeticForm (m : Calls) (focus : Focus) (op : ArithOp) (children : List ExprId) :
    Eval Cursor := do
  let left ← m.operand focus "arithmetic" (← childAt children 0)
  let right ← m.operand focus "arithmetic" (← childAt children 1)
  match left, right with
  | some a, some b => do
    let a ← numericOperand a
    let b ← numericOperand b
    return .ofAtomic (← (arithmetic op a b).mapError arithmeticFailure)
  | _, _ => return .empty

def negateForm (m : Calls) (focus : Focus) (children : List ExprId) : Eval Cursor := do
  match ← m.operand focus "unary minus" (← childAt children 0) with
  | some a => do
    return .ofAtomic (← (negate (← numericOperand a)).mapError arithmeticFailure)
  | none => return .empty

def valueComparison (m : Calls) (focus : Focus) (op : CompOp) (children : List ExprId) :
    Eval Cursor := do
  let left ← m.operand focus "value comparison" (← childAt children 0)
  let right ← m.operand focus "value comparison" (← childAt children 1)
  match left, right with
  | some a, some b => do
    return .ofItem (.ofBool (← valueCompare op (comparedOperand a) (comparedOperand b)))
  | _, _ => return .empty

def generalComparison (m : Calls) (focus : Focus) (op : CompOp) (children : List ExprId) :
    Eval Cursor := do
  let left ← m.drain (← m.execute (← childAt children 0) focus)
  let right ← m.execute (← childAt children 1) focus
  return .ofItem (.ofBool (← m.compareRows op left (.ofSource right)))

def rangeForm (m : Calls) (focus : Focus) (children : List ExprId) : Eval Cursor := do
  let first ← m.operand focus "range" (← childAt children 0)
  let last ← m.operand focus "range" (← childAt children 1)
  match ← optionalBound first, ← optionalBound last with
  | some a, some b => return .ofRange a b
  | _, _ => return .empty

def forForm (m : Calls) (p : Program) (focus : Focus) (binding : Option Binding)
    (children : List ExprId) : Eval Cursor := do
  let binding ← bound "for variable" binding
  let body ← childAt children 1
  let source ← m.execute (← childAt children 0) focus
  return .loop body binding (← m.snapshot focus (p.isContextSensitive body)) source

def quantifiedForm (m : Calls) (focus : Focus) (q : Quantifier) (binding : Option Binding)
    (children : List ExprId) : Eval Cursor := do
  let binding ← bound "quantified variable" binding
  let body ← childAt children 1
  let source ← m.execute (← childAt children 0) focus
  let usual := q == .every
  let b ← m.deviates focus binding body usual m.fuel source
  return .ofItem (.ofBool (b != usual))

/-- One expression, from the operations at the depth below. -/
def perform (m : Calls) (p : Program) (e : ExprId) (focus : Focus) : Eval Cursor := do
  let children := p.children e
  match p.form? e with
  | none => throw (unbound "operand")
  | some (.literal a) => return .ofAtomic a
  | some .contextItem => return .ofItem (← focus.requireItem)
  | some .root => return .ofItem (.node (← focus.root))
  | some (.variable name binding) => do return .ofItems (← m.vars.lookup name binding)
  | some (.call name function) => do
    let entry ← bound (name.text ++ "()") function
    let args ← m.executeAll focus children
    m.runScript focus (entry.body ⟨p.static.settings, args.length, m.fuel⟩) args.toArray
  | some (.path path) => m.path focus p.static.settings.uniqueNodes path
  | some (.filter steps) => do
    let source ← m.execute (← childAt children 0) focus
    return chain false (.ofParts [source]) steps
  | some (.arithmetic op) => m.arithmeticForm focus op children
  | some .negate => m.negateForm focus children
  | some .and => do
    if ← m.condition focus (← childAt children 0) then
      return .ofItem (.ofBool (← m.condition focus (← childAt children 1)))
    else return .ofItem (.ofBool false)
  | some .or => do
    if ← m.condition focus (← childAt children 0) then return .ofItem (.ofBool true)
    else return .ofItem (.ofBool (← m.condition focus (← childAt children 1)))
  | some (.compare .value op) => m.valueComparison focus op children
  | some (.compare .general op) => m.generalComparison focus op children
  | some .ifThenElse => do
    if ← m.condition focus (← childAt children 0) then m.execute (← childAt children 1) focus
    else m.execute (← childAt children 2) focus
  | some (.forEach _ binding) => m.forForm p focus binding children
  | some (.quantified q _ binding) => m.quantifiedForm focus q binding children
  | some .sequence => return .ofParts (← m.executeAll focus children)
  | some .range => m.rangeForm focus children
  | some .union => do
    return .ofItems ((inDocumentOrder true (← m.union focus children)).map .node)

end Calls

end XPath
