/-
Expressions and statements.

Every node carries the span of the text that it was read from, enclosing parentheses included.
-/
import CurveScript.Operator
import CurveScript.Span

namespace CurveScript

/-- expressions -/
inductive Expr where
  | integer (span : Span) (n : Int64)
  | float (span : Span) (x : Float)
  | var (span : Span) (name : String)
  | unary (span : Span) (op : UnaryOperator) (operand : Expr)
  | binary (span : Span) (op : BinaryOperator) (lhs rhs : Expr)
  | call (span : Span) (callee : Expr) (args : List Expr)
  | lambda (span : Span) (params : List String) (body : Expr)

namespace Expr

/-- the text that the expression was read from -/
def span : Expr → Span
  | integer s _ | float s _ | var s _ | unary s _ _ | binary s _ _ _ | call s _ _ | lambda s _ _ => s

/-- the same expression, read from another text -/
def withSpan (s : Span) : Expr → Expr
  | integer _ n => integer s n
  | float _ x => float s x
  | var _ name => var s name
  | unary _ op e => unary s op e
  | binary _ op l r => binary s op l r
  | call _ f args => call s f args
  | lambda _ ps body => lambda s ps body

mutual

/-- the number of nodes on the longest way to a leaf -/
def height : Expr → Nat
  | integer _ _ | float _ _ | var _ _ => 1
  | unary _ _ e => 1 + height e
  | binary _ _ l r => 1 + max (height l) (height r)
  | call _ f args => 1 + max (height f) (heights args)
  | lambda _ _ body => 1 + height body

/-- the greatest height in a list of expressions, 0 if there is none -/
def heights : List Expr → Nat
  | [] => 0
  | e :: es => max (height e) (heights es)

end

end Expr

/-- what a statement does -/
inductive StatementKind where
  | empty
  | evaluate (value : Expr)
  /-- `name = value` -/
  | assign (name : String) (value : Expr)
  /-- `name(params) = body` -/
  | define (name : String) (params : List String) (body : Expr)

/-- a statement and the text that it was read from -/
structure Statement where
  kind : StatementKind
  span : Span

end CurveScript
