import XPath.Axis.Axis
import XPath.Operator

/-!
# Expressions

The syntax of expressions. Names still carry their prefixes; they are resolved when an expression is
compiled. A path has a start and steps, and a step is an axis with a test and predicates, or any
expression.
-/

namespace XPath

inductive Literal where
  | integer (i : Int64)
  | decimal (x : Float)
  | double (x : Float)
  | string (s : String)
  | boolean (b : Bool)
  | typed (a : AtomicValue)
  | emptySequence

inductive BinaryOp where
  | arith (op : ArithOp)
  | and
  | or
  | compare (c : Comparison) (op : CompOp)
  | union
  | range

/-- A test on kinds, with names as they are written. -/
inductive WrittenKindTest where
  | anyNode
  | document
  | text
  | comment
  | instruction (target : Option String)
  | element (name : Option QName)
  | attribute (name : Option QName)
  | namespaceNode

/-- A node test, with names as they are written. -/
inductive WrittenTest where
  | name (q : QName)
  | anyName
  | anyLocal (nsPrefix : String)
  | anyNamespace (localName : String)
  | kind (t : WrittenKindTest)

mutual

inductive Expr where
  | literal (l : Literal)
  | contextItem
  | variable (name : QName)
  | call (name : QName) (args : List Expr)
  | sequence (items : List Expr)
  | binary (op : BinaryOp) (left right : Expr)
  | negate (e : Expr)
  | ifThenElse (cond yes no : Expr)
  | forEach (bindings : List VarBinding) (body : Expr)
  | quantified (q : Quantifier) (bindings : List VarBinding) (body : Expr)
  | path (start : Start) (steps : List PathStep)
  | filter (base : Expr) (predicates : List Expr)

inductive VarBinding where
  | mk (name : QName) (source : Expr)

/-- Where a path starts: at the root, at every node of the tree, at the context item, or at the items
of an expression. -/
inductive Start where
  | root
  | rootDescendant
  | relative
  | expr (e : Expr)

inductive PathStep where
  | axis (axis : Axis) (test : WrittenTest) (predicates : List Expr)
  | expr (e : Expr)

end

end XPath
