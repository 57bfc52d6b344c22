import XPath.Axis.Axis

/-!
# Steps of a path

A path is compiled into a chain of steps. `fuse` shortens a chain without changing what the path
selects:

- a predicate that is a literal position becomes a position filter,
- `descendant-or-self::node()` before a run of child steps without predicates becomes one descent that
  checks the whole run, and before a single child step a `descendant` step.

`isOrdered` tells from the steps alone whether a chain delivers nodes in document order without
repeats. It follows three facts about the nodes so far: they are ordered, no one lies below another,
there is at most one.
-/

namespace XPath

/-- An expression is known by its number. -/
abbrev ExprId := Nat

inductive Step where
  | axis (axis : Axis) (test : Option NodeTest)
  /-- Any descendant-or-self, then a run of child steps. -/
  | descent (tests : List NodeTest)
  | position (n : Nat)
  | predicate (e : ExprId)
  | expr (e : ExprId) (nodesOnly : Bool)
deriving DecidableEq

namespace Step

/-- A filter restricts the step before it; all other steps navigate. -/
def isFilter : Step → Bool
  | position _ | predicate _ => true
  | _ => false

def isExpr : Step → Bool
  | expr _ _ => true
  | _ => false

def stepName : Axis → String
  | .child => "Child"
  | .descendant => "Descendant"
  | .descendantOrSelf => "DescendantOrSelf"
  | .parent => "Parent"
  | .ancestor => "Ancestor"
  | .ancestorOrSelf => "AncestorOrSelf"
  | .followingSibling => "FollowingSibling"
  | .following => "Following"
  | .precedingSibling => "PrecedingSibling"
  | .preceding => "Preceding"
  | .attribute => "Attribute"
  | .namespaces => "Namespace"
  | .self => "Self"

def written : Step → String
  | axis a test => stepName a ++ "(" ++ (test.getD .anyNode).written ++ ")"
  | descent tests =>
    "ChildOverDescendants(" ++ String.intercalate "," (tests.map NodeTest.written) ++ ")"
  | position n => "PositionFilter(" ++ Text.natText n ++ ")"
  | predicate _ => "Predicate"
  | expr _ _ => "Expr"

end Step

/-- Whether a chain ends in navigation and not in an expression. -/
def yieldsNodes (steps : List Step) : Bool :=
  match (steps.filter (!·.isFilter)).getLast? with
  | some s => !s.isExpr
  | none => false

/-! ## Shortening chains -/

/-- Turns predicates that are literal positions into position filters. -/
def fixPositions (literal : ExprId → Option Nat) (steps : List Step) : List Step :=
  steps.map fun
    | .predicate e => (literal e).elim (.predicate e) .position
    | s => s

def startsWithFilter : List Step → Bool
  | s :: _ => s.isFilter
  | [] => false

/-- The tests of the child steps at the front that carry no filter. -/
def childRun : List Step → List (Option NodeTest)
  | .axis .child test :: rest => if startsWithFilter rest then [] else test :: childRun rest
  | _ => []

/-- Whether a step is `descendant-or-self::node()`. -/
def Step.reachesAll : Step → Bool
  | axis .descendantOrSelf test => test.all NodeTest.isAnyNode
  | _ => false

/-- Merges runs of child steps into the step before them. The first argument counts the steps that
have been merged already and are to be passed over. -/
def mergeRuns : Nat → List Step → List Step
  | _, [] => []
  | k + 1, _ :: rest => mergeRuns k rest
  | 0, s :: rest =>
    if s.reachesAll && !startsWithFilter rest then
      match childRun rest with
      | [] => s :: mergeRuns 0 rest
      | [test] => .axis .descendant test :: mergeRuns 1 rest
      | run => .descent (run.map (·.getD .anyNode)) :: mergeRuns run.length rest
    else s :: mergeRuns 0 rest

/-- The shortened chain. -/
def fuse (literal : ExprId → Option Nat) (steps : List Step) : List Step :=
  mergeRuns 0 (fixPositions literal steps)

/-! ## Order -/

/-- What is known of the nodes at some point of a chain. -/
structure OrderFacts where
  ordered : Bool
  disjoint : Bool
  singleton : Bool
deriving DecidableEq

namespace OrderFacts

def nothing : OrderFacts := ⟨false, false, false⟩

/-- The facts after a step. -/
def after (f : OrderFacts) : Step → OrderFacts
  | .axis .child _ => if f.ordered && f.disjoint then { f with singleton := false } else nothing
  | .axis .self _ => if f.ordered && f.disjoint then f else nothing
  | .axis .attribute _ | .axis .namespaces _ =>
    if f.ordered then ⟨true, true, false⟩ else nothing
  | .axis .descendant _ | .axis .descendantOrSelf _ | .descent _ =>
    if f.ordered && f.disjoint then ⟨true, false, false⟩ else nothing
  | .axis .followingSibling _ => if f.singleton then ⟨true, true, false⟩ else nothing
  | .axis .following _ => if f.singleton then ⟨true, false, false⟩ else nothing
  | .position _ | .predicate _ => f
  | .axis .parent _ | .axis .ancestor _ | .axis .ancestorOrSelf _ | .axis .precedingSibling _
  | .axis .preceding _ | .expr _ _ => nothing

end OrderFacts

/-- Whether a chain keeps document order, given what is known of its start. -/
def isOrdered (steps : List Step) (start : OrderFacts) : Bool :=
  (steps.foldl OrderFacts.after start).ordered

end XPath
