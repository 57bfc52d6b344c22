import XPath.Eval.Machine

/-!
# Copying cursors

A copy goes on from where the cursor stands and shares nothing with it but caches. Whatever runs
expressions gets a copy of the slots as they are now, in a scope of its own. The sequence that a loop
or an expression step is in the middle of is computed again on those slots and read up to the same
place; if that fails, the copy reports it when it is pulled.
-/

namespace XPath

namespace Calls

def cloneAll (m : Calls) : List Cursor → Run (List Cursor)
  | [] => return []
  | c :: cs => do
    let c ← m.clone c
    return c :: (← m.cloneAll cs)

/-- Computes a sequence again and reads `consumed` items of it. -/
def replay (m : Calls) (consumed : Nat) (value : Eval Cursor) : Run BodyRun := do
  match ← (do m.skip consumed (← value) : Eval Cursor).run with
  | .ok inner => return .running inner consumed
  | .error e => return .failed e

/-- One copy of a cursor that is not a scope, from the operations at the depth below. -/
def copy (m : Calls) (p : Program) (c : Cursor) : Run Cursor :=
  match c with
  | .empty | .items .. | .range .. | .buffered .. => return c
  | .concat spent rest pos fin => do
    return .concat (← m.cloneAll spent) (← m.cloneAll rest) pos fin
  | .nodesOnly input fin => do return .nodesOnly (← m.clone input) fin
  | .axis axis test source walk current pos fin => do
    return .axis axis test (← m.clone source) walk current pos fin
  | .descent tests source walk current pos fin => do
    return .descent tests (← m.clone source) walk current pos fin
  | .nth n perGroup input inputPos done pos fin => do
    return .nth n perGroup (← m.clone input) inputPos done pos fin
  | .predicate e input inputPos fixed size pos fin => do
    let slots := (← get).slots
    return .scope p slots (.predicate e (← m.clone input) inputPos fixed size pos fin)
  | .forEach body binding focus source run pos fin => do
    let slots := (← get).slots
    let source ← m.clone source
    let (run, slots) ← match run, source.current with
      | .running _ consumed, some item =>
        onSlots slots
          (m.replay consumed (m.vars.iterate binding item (.fixed focus) (m.execute body)))
      | .failed e, _ => pure (.failed e, slots)
      | _, _ => pure (.idle, slots)
    return .scope p slots (.forEach body binding focus source run pos fin)
  | .step e source run pos fin => do
    let slots := (← get).slots
    let source ← m.clone source
    let (run, slots) ← match run with
      | .running _ consumed =>
        onSlots slots do
          return (← withGroupSize none (m.replay consumed (m.execute e (.current source)))).1
      | run => pure (run, slots)
    return .scope p slots (.step e source run pos fin)
  | .ordered unique (.unsorted input) current pos fin => do
    return .ordered unique (.unsorted (← m.clone input)) current pos fin
  | .ordered _ (.sorted _ _) _ _ _ | .scope .. => return c

/-- One copy on the slots of the innermost scope around the cursor. -/
def copyScoped (copy : Program → Cursor → Run Cursor) : Program → Cursor → Run Cursor
  | _, .scope q slots inner => do return (← onSlots slots (copyScoped copy q inner)).1
  | p, c => copy p c

end Calls

end XPath
