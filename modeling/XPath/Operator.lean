/-!
# Operators

The binary operators of arithmetic and comparison, with their written forms, and the words that
belong to an operator's use.
-/

namespace XPath

inductive ArithOp where
  | add
  | sub
  | mul
  | div
  | idiv
  | mod
deriving DecidableEq

def ArithOp.text : ArithOp → String
  | add => "+"
  | sub => "-"
  | mul => "*"
  | div => "div"
  | idiv => "idiv"
  | mod => "mod"

inductive CompOp where
  | eq
  | ne
  | lt
  | le
  | gt
  | ge
deriving DecidableEq

def CompOp.text : CompOp → String
  | eq => "eq"
  | ne => "ne"
  | lt => "lt"
  | le => "le"
  | gt => "gt"
  | ge => "ge"

/-- A value comparison relates two single values, a general comparison any two members of its
operands. -/
inductive Comparison where
  | value
  | general
deriving DecidableEq

inductive Quantifier where
  | some
  | every
deriving DecidableEq

end XPath
