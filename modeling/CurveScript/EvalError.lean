/-
Failures of an evaluation.
-/
import CurveScript.Arity
import CurveScript.Operator

namespace CurveScript

/-- the kinds of values -/
inductive ValueKind where
  | integer
  | float
  | unit
  | function
  | graph
  deriving DecidableEq

/-- the kind as messages show it -/
def ValueKind.text : ValueKind → String
  | integer => "Integer"
  | float => "Float"
  | unit => "Unit"
  | function => "Function"
  | graph => "GraphingFunction"

/-- what went wrong in an evaluation -/
inductive EvalError where
  | undefinedSymbol (name : String)
  | wrongArgumentCount (name : String) (expected : Arity) (got : Nat)
  | divisionByZero
  | typeMismatch (op : BinaryOperator) (lhs rhs : ValueKind)
  | invalidOperand (op : String) (operand : ValueKind)
  | notCallable (kind : ValueKind)
  | overflow (op : String)
  | domain (function message : String)
  | plugin (function message : String)
  | recursionLimit (limit : Nat)
  deriving DecidableEq

namespace EvalError

/-- the message of an evaluation error -/
def message : EvalError → String
  | undefinedSymbol name => "undefined symbol '" ++ name ++ "'"
  | wrongArgumentCount name expected got =>
    "wrong argument count: " ++ name ++ "() expects " ++ expected.text ++ " argument(s), got " ++ toString got
  | divisionByZero => "division by zero"
  | typeMismatch op lhs rhs =>
    "type mismatch: cannot apply '" ++ op.symbol ++ "' to " ++ lhs.text ++ " and " ++ rhs.text
  | invalidOperand op operand => "type mismatch: cannot apply '" ++ op ++ "' to " ++ operand.text
  | notCallable kind => kind.text ++ " is not callable"
  | overflow op => "numeric overflow in '" ++ op ++ "'"
  | domain function text => "domain error in " ++ function ++ "(): " ++ text
  | plugin function text => "plugin function " ++ function ++ "() failed: " ++ text
  | recursionLimit limit => "function calls nest deeper than " ++ toString limit ++ " levels"

/-- the code by which a program tells errors apart -/
def code : EvalError → String
  | undefinedSymbol _ => "UNDEFINED_SYMBOL"
  | wrongArgumentCount _ _ _ => "ARG_COUNT"
  | divisionByZero => "DIV_ZERO"
  | typeMismatch _ _ _ | invalidOperand _ _ => "TYPE_ERROR"
  | notCallable _ => "NOT_CALLABLE"
  | overflow _ => "OVERFLOW"
  | domain _ _ => "DOMAIN_ERROR"
  | plugin _ _ => "PLUGIN_ERROR"
  | recursionLimit _ => "RECURSION_LIMIT"

end EvalError

end CurveScript
