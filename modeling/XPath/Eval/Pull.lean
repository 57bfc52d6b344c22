import XPath.Eval.Machine

/-!
# Pulling cursors

The next item of every kind of cursor. All of them keep the same rules: after an item the cursor has a
current item; after the end or an error it is finished, has none, and stays so until it is reset.
-/

namespace XPath

namespace Calls

def bufferedNext (m : Calls) (id taken pos : Nat) : Run Pulled := do
  match (← get).caches[id]? with
  | none => return (.buffered id taken none pos true, .ok false)
  | some cache => do
    let (cache, r) ← m.fetch taken m.fuel cache
    modify fun s => { s with caches := s.caches.setIfInBounds id cache }
    match r with
    | .ok (some item) => return (.buffered id (taken + 1) (some item) (pos + 1) false, .ok true)
    | .ok none => return (.buffered id taken none pos true, .ok false)
    | .error e => return (.buffered id taken none pos true, .error e)

/-- The first part that has a further item. -/
def concatNext (m : Calls) (pos : Nat) : List Cursor → List Cursor → Run Pulled
  | spent, [] => return (.concat spent [] pos true, .ok false)
  | spent, c :: rest => do
    let (c, r) ← m.next c
    match r with
    | .ok true => return (.concat spent (c :: rest) (pos + 1) false, .ok true)
    | .ok false => m.concatNext pos (c :: spent) rest
    | .error e => return (.concat spent (c :: rest) pos true, .error e)

def nodesOnlyNext (m : Calls) (input : Cursor) : Run Pulled := do
  let (input, r) ← m.next input
  match r with
  | .ok true =>
    match input.current with
    | some (.atomic a) => return (.nodesOnly input true, .error (.format .XPTY0019 [a.typeName]))
    | _ => return (.nodesOnly input false, .ok true)
  | r => return (.nodesOnly input true, r)

/-- Goes on with the walk, or starts a new one from the next node of the source. -/
def axisNext (m : Calls) (axis : Axis) (test : NodeTest) :
    Nat → Cursor → Walk → Nat → Run Pulled
  | fuel, source, walk, pos =>
    match walk.next? (test.accepts · axis.principalKind) with
    | some (n, walk) => return (.axis axis test source walk (some n) (pos + 1) false, .ok true)
    | none =>
      match fuel with
      | 0 => outOfFuel
      | fuel + 1 => do
        let (source, r) ← m.next source
        match r with
        | .ok true =>
          match source.current with
          | some (.node n) =>
            m.axisNext axis test fuel source (.start axis (test.kind? axis.principalKind) n) 0
          | _ =>
            return (.axis axis test source .ended none pos true,
              .error (.format .XPTY0020 [axis.text]))
        | r => return (.axis axis test source .ended none pos true, r)

def descentNext (m : Calls) (tests : List NodeTest) :
    Nat → Cursor → Option DescentWalk → Nat → Run Pulled
  | fuel, source, walk, pos =>
    match walk.bind (·.next? tests) with
    | some w => return (.descent tests source (some w) (some w.node) (pos + 1) false, .ok true)
    | none =>
      match fuel with
      | 0 => outOfFuel
      | fuel + 1 => do
        let (source, r) ← m.next source
        match r with
        | .ok true =>
          match source.current with
          | some (.node n) => m.descentNext tests fuel source (some ⟨n, 0⟩) 0
          | _ =>
            return (.descent tests source none none pos true,
              .error (.format .XPTY0020 [Axis.descendantOrSelf.text]))
        | r => return (.descent tests source none none pos true, r)

/-- The next item whose position in its group is `n`. Where the input is one group, nothing is pulled
after that item. -/
def nthNext (m : Calls) (n : Nat) (perGroup : Bool) :
    Nat → Cursor → Nat → Bool → Nat → Run Pulled
  | 0, _, _, _, _ => outOfFuel
  | fuel + 1, input, inputPos, groupDone, pos =>
    if groupDone && !perGroup then
      return (.nth n perGroup input inputPos groupDone pos true, .ok false)
    else do
      let (input, r) ← m.next input
      match r with
      | .ok true =>
        let p := input.position
        let newGroup := p ≤ inputPos
        let groupDone := groupDone && !newGroup
        if !groupDone && p == n then
          return (.nth n perGroup input p true 1 false, .ok true)
        else m.nthNext n perGroup fuel input p groupDone (if newGroup then 0 else pos)
      | r => return (.nth n perGroup input inputPos groupDone pos true, r)

/-- The selection that a predicate makes with the current item of the input as its focus. -/
def selection (m : Calls) (e : ExprId) (input : Cursor) : Eval Selection := do
  let value ← m.execute e (.current input)
  Selection.ofItems (← m.firstTwo value)

/-- The next item that the predicate selects. -/
def predicateNext (m : Calls) (p : Program) (e : ExprId) :
    Nat → Cursor → Nat → Option Selection → Option Nat → Nat → Run Pulled
  | 0, _, _, _, _, _ => outOfFuel
  | fuel + 1, input, inputPos, fixed, size, pos => do
    let (input, r) ← m.next input
    match r with
    | .ok true =>
      let here := input.position
      let newGroup := here ≤ inputPos
      let pos := if newGroup then 0 else pos
      let size := if newGroup then none else size
      match fixed with
      | some s =>
        if s.accepts here then
          return (.predicate e input here fixed size (pos + 1) false, .ok true)
        else m.predicateNext p e fuel input here fixed size pos
      | none => do
        let (r, counted) ← withGroupSize size (m.selection e input).run
        match r with
        | .error err => return (.predicate e input here fixed size pos true, .error err)
        | .ok s =>
          let fixed := if p.isContextSensitive e then none else some s
          if s.accepts here then
            return (.predicate e input here fixed counted (pos + 1) false, .ok true)
          else m.predicateNext p e fuel input here fixed counted pos
    | r => return (.predicate e input inputPos fixed size pos true, r)

/-- The next item of the sequences that are computed for the items of the source in turn. `start`
computes one from the source at its current item, or passes over the item; `wrap` makes a cursor of the
state. Positions begin again with every sequence if each one is a group. -/
def bodyNext (m : Calls) (start : Cursor → Eval (Option Cursor)) (grouped : Bool)
    (wrap : Cursor → BodyRun → Nat → Bool → Cursor) : Nat → Cursor → BodyRun → Nat → Run Pulled
  | 0, _, _, _ => outOfFuel
  | fuel + 1, source, run, pos =>
    match run with
    | .failed e => return (wrap source .idle pos true, .error e)
    | .running inner consumed => do
      let (inner, r) ← m.next inner
      match r with
      | .ok true => return (wrap source (.running inner (consumed + 1)) (pos + 1) false, .ok true)
      | .ok false => m.bodyNext start grouped wrap fuel source .idle pos
      | .error e => return (wrap source .idle pos true, .error e)
    | .idle => do
      let (source, r) ← m.next source
      match r with
      | .ok true => do
        match ← (start source).run with
        | .ok (some inner) =>
          m.bodyNext start grouped wrap fuel source (.running inner 0) (if grouped then 0 else pos)
        | .ok none => m.bodyNext start grouped wrap fuel source .idle pos
        | .error e => return (wrap source .idle pos true, .error e)
      | r => return (wrap source .idle pos true, r)

/-- The body of a loop for the current item of the source. -/
def startIteration (m : Calls) (body : ExprId) (binding : Binding) (focus : Snapshot)
    (source : Cursor) : Eval (Option Cursor) :=
  match source.current with
  | none => return none
  | some item => do return some (← m.vars.iterate binding item (.fixed focus) (m.execute body))

/-- An expression with the current item of the source as its focus. -/
def startStep (m : Calls) (e : ExprId) (source : Cursor) : Eval (Option Cursor) := do
  let (r, _) ← withGroupSize none (m.execute e (.current source)).run
  return some (← r)

/-- Reads the whole input, which must be nodes only or atomic values only; the latter come last one
first. -/
def gather (m : Calls) : Nat → Cursor → List Node → List Item → Eval (List Node × List Item)
  | 0, _, _, _ => ExceptT.lift outOfFuel
  | fuel + 1, c, nodes, atomics => do
    let (c, r) ← m.next c
    if ← r then
      let nodes := (c.current.bind Item.node?).toList ++ nodes
      let atomics := (c.current.filter (!·.isNode)).toList ++ atomics
      if nodes.isEmpty || atomics.isEmpty then m.gather fuel c nodes atomics
      else throw (.format .XPTY0018 [])
    else return (nodes, atomics)

/-- The items of an ordered cursor. -/
def arrange (m : Calls) (unique : Bool) (input : Cursor) : Eval (List Item) := do
  let (nodes, atomics) ← m.gather m.fuel input [] []
  if atomics.isEmpty then return (inDocumentOrder unique nodes.reverse).map .node
  else return atomics.reverse

def orderedNext (m : Calls) (unique : Bool) (pos : Nat) : Supply → Run Pulled
  | .sorted all (item :: rest) =>
    return (.ordered unique (.sorted all rest) (some item) (pos + 1) false, .ok true)
  | .sorted all [] => return (.ordered unique (.sorted all []) none pos true, .ok false)
  | .unsorted input => do
    match ← (m.arrange unique input).run with
    | .ok (item :: rest) =>
      return (.ordered unique (.sorted (item :: rest) rest) (some item) (pos + 1) false, .ok true)
    | .ok [] => return (.ordered unique (.sorted [] []) none pos true, .ok false)
    | .error e => return (.ordered unique (.sorted [] []) none pos true, .error e)

/-- One pull of a cursor that is not a scope, from the operations at the depth below. -/
def pull (m : Calls) (p : Program) (c : Cursor) : Run Pulled :=
  match c with
  | .empty => return (.empty, .ok false)
  | .items all (item :: rest) _ pos _ => return (.items all rest (some item) (pos + 1) false, .ok true)
  | .items all [] _ pos _ => return (.items all [] none pos true, .ok false)
  | .range first last (some i) _ pos =>
    let upcoming := if i < last then some (i + 1) else none
    return (.range first last upcoming (some i) (pos + 1), .ok true)
  | .range first last none _ pos => return (.range first last none none pos, .ok false)
  | .buffered id taken _ pos false => m.bufferedNext id taken pos
  | .concat spent rest pos false => m.concatNext pos spent rest
  | .nodesOnly input false => m.nodesOnlyNext input
  | .axis axis test source walk _ pos false => m.axisNext axis test m.fuel source walk pos
  | .descent tests source walk _ pos false => m.descentNext tests m.fuel source walk pos
  | .nth n perGroup input inputPos done pos false =>
    m.nthNext n perGroup m.fuel input inputPos done pos
  | .predicate e input inputPos fixed size pos false =>
    m.predicateNext p e m.fuel input inputPos fixed size pos
  | .forEach body binding focus source run pos false =>
    m.bodyNext (m.startIteration body binding focus) false (.forEach body binding focus) m.fuel
      source run pos
  | .step e source run pos false =>
    m.bodyNext (m.startStep e) true (.step e) m.fuel source run pos
  | .ordered unique supply _ pos false => m.orderedNext unique pos supply
  | c => return (c, .ok false)

/-- One pull on the slots of the innermost scope around the cursor. -/
def pullScoped (pull : Program → Cursor → Run Pulled) : Program → Cursor → Run Pulled
  | _, .scope q slots inner => do
    let ((inner, r), slots) ← onSlots slots (pullScoped pull q inner)
    return (.scope q slots inner, r)
  | p, c => pull p c

end Calls

end XPath
