/-
Reading one statement from its tokens.

A statement is empty, binds a name (`name = value`), defines a function (`name(params) = body`) or is an expression.
What starts like a definition but has other things than names in its parentheses, or no `=` after them, is read as an
expression. Every token must be used.
-/
import CurveScript.Expr.Parser

namespace CurveScript.Statement

open CurveScript.Parser

/-- the expression, if nothing follows it -/
def finish (e : Expr) : List Token → Except ParseError Expr
  | [] => .ok e
  | t :: _ =>
    match t.kind with
    | .symbol .assign => .error ⟨.invalidAssignmentTarget, t.span⟩
    | _ => .error (unexpected t .operatorOrEnd)

/-- the expression that all the tokens make -/
def whole (stop : Nat) (ts : List Token) : Except ParseError Expr :=
  match expression stop ts with
  | .error e => .error e
  | .ok (e, rest) => finish e rest.1

/-- the name and the value's tokens of an assignment -/
def assignment? : List Token → Option (String × List Token)
  | t :: next :: rest =>
    match t.kind, next.kind with
    | .name s, .symbol .assign => some (s, rest)
    | _, _ => none
  | _ => none

/-- the name, the parameters and the body's tokens of a definition -/
def definition? (stop : Nat) : List Token → Option (String × List (String × Span) × List Token)
  | t :: next :: rest =>
    match t.kind, next.kind with
    | .name s, .leftParen =>
      match parameters stop rest with
      | .error _ => none
      | .ok (params, after) =>
        match after.1 with
        | [] => none
        | sign :: body =>
          match sign.kind with
          | .symbol .assign => some (s, params, body)
          | _ => none
    | _, _ => none
  | _ => none

/-- what the tokens say to do -/
def kindOf (stop : Nat) (ts : List Token) : Except ParseError StatementKind :=
  match assignment? ts with
  | some (name, value) => (whole stop value).map (.assign name)
  | none =>
    match definition? stop ts with
    | some (name, found, body) =>
      match distinct found with
      | .error e => .error e
      | .ok params => (whole stop body).map (.define name params)
    | none => (whole stop ts).map .evaluate

/-- The statement that the tokens make; `stop` is where it ends in the source. -/
def parse (ts : List Token) (stop : Nat) : Except ParseError Statement :=
  match ts with
  | [] => .ok ⟨.empty, .point stop⟩
  | t :: rest => (kindOf stop (t :: rest)).map fun k => ⟨k, t.span.cover ((t :: rest).getLastD t).span⟩

end CurveScript.Statement
