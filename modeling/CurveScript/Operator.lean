/-
The operators of expressions.
-/

namespace CurveScript

/-- operators before an operand -/
inductive UnaryOperator where
  | negate
  | plus
  deriving DecidableEq

/-- operators between two operands -/
inductive BinaryOperator where
  | add
  | sub
  | mul
  | div
  | rem
  | pow
  | eq
  | ne
  | lt
  | le
  | gt
  | ge
  deriving DecidableEq

namespace BinaryOperator

/-- the operator as scripts write it -/
def symbol : BinaryOperator → String
  | add => "+"
  | sub => "-"
  | mul => "*"
  | div => "/"
  | rem => "%"
  | pow => "^"
  | eq => "=="
  | ne => "!="
  | lt => "<"
  | le => "<="
  | gt => ">"
  | ge => ">="

/-- whether the operator answers a question about the order of its operands -/
def isComparison : BinaryOperator → Bool
  | eq | ne | lt | le | gt | ge => true
  | _ => false

end BinaryOperator

end CurveScript
