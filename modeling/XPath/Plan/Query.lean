import XPath.Plan.Bind
import XPath.Plan.Lower

/-!
# Compiled expressions
-/

namespace XPath

/-- A bound program with its main expression, ready to be evaluated any number of times. -/
structure Query where
  program : Program
  root : ExprId
  slots : SlotCounts

/-- Compiles an expression. Only the collation by code points is known. -/
def compile (static : StaticContext) (e : Expr) : Except Error Query := do
  if static.settings.collation ≠ codepointCollation then
    throw (.format .FOCH0002 [static.settings.collation])
  let (root, p) ← (lower e).run (.empty static)
  let (p, r) := p.bind root
  return ⟨p, root, ← r⟩

namespace Query

def returnType (q : Query) : ResultType :=
  q.program.returnType q.root

def isContextSensitive (q : Query) : Bool :=
  q.program.isContextSensitive q.root

def path? (q : Query) : Option PathPlan :=
  match q.program.form? q.root with
  | some (.path p) => some p
  | _ => none

/-- Whether the main expression is a path known to be ordered. -/
def isOrderedPath (q : Query) : Bool :=
  q.path?.any (·.ordered)

/-- Whether the main expression is a path whose result is sorted. -/
def sortsResult (q : Query) : Bool :=
  q.path?.any (·.sort)

/-- The chain of the main expression, if it is a path or a filter. -/
def steps (q : Query) : List Step :=
  match q.program.form? q.root with
  | some (.path p) => p.steps
  | some (.filter steps) => steps
  | _ => []

end Query

end XPath
