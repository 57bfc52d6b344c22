import XPath.Eval.Copy
import XPath.Eval.Execute
import XPath.Eval.Pull
import XPath.Plan.Query

/-!
# Running queries

The machine at a depth is defined from the machine at the depth below. A query is run in a dynamic
context, either to the end or as a cursor that the caller pulls.
-/

namespace XPath

open Power

/-- Variables in the slots that binding gave them. A loop writes its slot for every item, in place. -/
def Variables.inSlots : Variables :=
  { lookup := fun name binding => do readSlot (← Calls.bound ("$" ++ name.text) binding)
    iterate := fun binding item focus run => do
      writeSlot binding item
      run focus }

/-- The operations on the cursors of a program, at most `fuel` calls deep. The variables of a program
are kept as `vars` says. -/
def machineWith (vars : Program → Variables) : Nat → Program → Calls
  | 0, p => .spent (vars p)
  | fuel + 1, p =>
    { fuel := fuel
      next := Calls.pullScoped (fun q => (machineWith vars fuel q).pull q) p
      clone := Calls.copyScoped (fun q => (machineWith vars fuel q).copy q) p
      execute := fun e focus => (machineWith vars fuel p).perform p e focus
      vars := vars p }

/-- The operations with variables in slots. -/
def machine : Nat → Program → Calls :=
  machineWith fun _ => .inSlots

/-- More than any run can use up. -/
def ampleFuel : Nat := 2 ^ (62 : Nat)

/-- Executes an expression on slots and reads all of its result. -/
def Program.evaluateOn (fuel : Nat) (p : Program) (e : ExprId) (focus : Snapshot) (slots : Slots) :
    Option (Except Error (List Item) × Slots) :=
  let m := machine fuel p
  let run : Eval (List Item) := do m.drain (← m.execute e (.fixed focus))
  (run.run.run (.ofSlots slots)).map fun (r, store) => (r, store.slots)

namespace Query

/-- Fills the slots of the external variables from number `slot` on. -/
def fillSlots (values : List (ExpandedName × List Item)) :
    List ExpandedName → Nat → Slots → Except Error Slots
  | [], _, slots => .ok slots
  | name :: names, slot, slots =>
    match values.lookup name with
    | some value => fillSlots values names (slot + 1) (slots.set slot value)
    | none => .error (.format .XPDY0002 ["external variable $" ++ name.text])

/-- Fresh slots with the values of the external variables, all of which must be given. -/
def createSlots (q : Query) (values : List (ExpandedName × List Item)) : Except Error Slots :=
  fillSlots values q.program.static.settings.externals 0 (.ofSize q.slots.total)

/-- Runs the query on slots; the slots are given back as the run leaves them. -/
def evaluateOn (fuel : Nat) (q : Query) (focus : Snapshot) (slots : Slots) :
    Option (Except Error (List Item) × Slots) :=
  q.program.evaluateOn fuel q.root focus slots

/-- All items of the result. -/
def evaluate (fuel : Nat) (q : Query) (focus : Snapshot)
    (values : List (ExpandedName × List Item)) : Option (Except Error (List Item)) :=
  match q.createSlots values with
  | .error e => some (.error e)
  | .ok slots => (q.evaluateOn fuel focus slots).map (·.1)

/-- The result as a cursor with slots of its own. -/
def stream (fuel : Nat) (q : Query) (c : DynamicContext) : Option (Except Error Cursor) :=
  match q.createSlots c.values with
  | .error e => some (.error e)
  | .ok slots =>
    let run := (machine fuel q.program).execute q.root (.fixed (.single c.contextItem))
    (run.run.run (.ofSlots slots)).map fun (r, store) =>
      r.map fun cursor => .scope q.program store.slots cursor

end Query

end XPath
