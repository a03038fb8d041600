/-
Reading expressions from tokens.

Precedence, lowest first:

  comparison   == != < <= > >=   left to right
  sum          + -               left to right
  product      * / %             left to right
  prefix       - +
  power        ^                 right to left, the exponent may have prefix operators
  call         f(args)
  primary      number, name, (expr), fn(params) => expr

Each reader takes at least one token and returns what follows it. `levels` is how many more levels of parentheses,
arguments, prefix operators, exponents and function bodies may be entered: every way back to the lowest precedence
uses one up, so reading ends. Operator chains and chains of calls take no level, and are bounded by the height of the
tree that they build instead.
-/
import CurveScript.Expr
import CurveScript.Token

namespace CurveScript

/-! ## Errors -/

/-- what a statement lacked at some place -/
inductive Expectation where
  | expression
  | commaOrParen
  | closingParen
  | openingParen
  | arrow
  | parameterName
  | operatorOrEnd
  deriving DecidableEq

/-- the expectation as messages put it -/
def Expectation.text : Expectation → String
  | expression => "expression"
  | commaOrParen => "',' or ')'"
  | closingParen => "')'"
  | openingParen => "'('"
  | arrow => "'=>'"
  | parameterName => "parameter name"
  | operatorOrEnd => "operator or end of statement"

/-- what is wrong with a statement -/
inductive ParseFault where
  | unexpectedToken (found : TokenKind) (expected : Expectation)
  | unexpectedEnd (expected : Expectation)
  | invalidAssignmentTarget
  | duplicateParameter (name : String)
  | tooDeep (limit : Nat)

/-- the fault as messages put it -/
def ParseFault.text : ParseFault → String
  | unexpectedToken found expected => "unexpected " ++ found.text ++ ", expected " ++ expected.text
  | unexpectedEnd expected => "unexpected end of statement, expected " ++ expected.text
  | invalidAssignmentTarget => "left side of '=' must be a name or a function signature"
  | duplicateParameter name => "parameter '" ++ name ++ "' is declared twice"
  | tooDeep limit => "expression nests deeper than " ++ toString limit ++ " levels"

/-- the first fault of a statement and where it stands -/
structure ParseError where
  fault : ParseFault
  span : Span

/-- the message of a parse error -/
def ParseError.message (e : ParseError) : String := "parse error at " ++ e.span.text ++ ": " ++ e.fault.text

/-- the greatest number of nested levels, and the greatest height of a chain -/
def maxDepth : Nat := 200

/-! ## Readers -/

namespace Parser

/-- what follows after at least one token was taken -/
abbrev Rest (ts : List Token) := { rest : List Token // rest.length < ts.length }

/-- what follows after some tokens, perhaps none, were taken -/
abbrev Tail (ts : List Token) := { rest : List Token // rest.length ≤ ts.length }

/-- reads something from the front of the tokens, at least one of them -/
abbrev Reader (α : Type) := (ts : List Token) → Except ParseError (α × Rest ts)

/-- the error at a token that does not belong there -/
def unexpected (t : Token) (expected : Expectation) : ParseError := ⟨.unexpectedToken t.kind expected, t.span⟩

/-- the error at the end of a statement that should go on -/
def missing (stop : Nat) (expected : Expectation) : ParseError := ⟨.unexpectedEnd expected, .point stop⟩

/-- the error where a level too many would be entered -/
def tooDeep (at_ : Span) : ParseError := ⟨.tooDeep maxDepth, at_⟩

/-- where the next token stands, or the end of the statement -/
def nextSpan (stop : Nat) : List Token → Span
  | [] => .point stop
  | t :: _ => t.span

/-- the operation on two expressions -/
def operation (op : BinaryOperator) (lhs rhs : Expr) : Expr := .binary (lhs.span.cover rhs.span) op lhs rhs

/-- the expression, if it is not too tall -/
def shallow (e : Expr) (at_ : Span) : Except ParseError Expr :=
  if maxDepth < e.height then .error (tooDeep at_) else .ok e

/-- the operator of a table that the token stands for -/
def operatorIn? (table : Symbol → Option BinaryOperator) (t : Token) : Option BinaryOperator :=
  match t.kind with
  | .symbol s => table s
  | _ => none

/-- the further operands of a chain whose tree so far is `lhs` -/
def chainRest (table : Symbol → Option BinaryOperator) (operand : Reader Expr) (lhs : Expr) (ts : List Token) :
    Except ParseError (Expr × Tail ts) :=
  match ts with
  | [] => .ok (lhs, ⟨[], Nat.le_refl _⟩)
  | t :: rest =>
    match operatorIn? table t with
    | none => .ok (lhs, ⟨t :: rest, Nat.le_refl _⟩)
    | some op =>
      match operand rest with
      | .error e => .error e
      | .ok (rhs, after) =>
        match shallow (operation op lhs rhs) t.span with
        | .error e => .error e
        | .ok tree =>
          match chainRest table operand tree after.1 with
          | .error e => .error e
          | .ok (e, tail) => .ok (e, ⟨tail.1, by have := after.2; have := tail.2; simp only [List.length_cons]; omega⟩)
termination_by ts.length
decreasing_by have := after.2; simp only [List.length_cons]; omega

/-- a chain of operands, grouped from the left -/
def chain (table : Symbol → Option BinaryOperator) (operand : Reader Expr) : Reader Expr := fun ts =>
  match operand ts with
  | .error e => .error e
  | .ok (lhs, after) =>
    match chainRest table operand lhs after.1 with
    | .error e => .error e
    | .ok (e, tail) => .ok (e, ⟨tail.1, by have := after.2; have := tail.2; omega⟩)

/-- the rest of a parenthesised list of expressions after `(` or a comma, up to and including `)` -/
def argumentsRest (stop : Nat) (argument : Reader Expr) (ts : List Token) :
    Except ParseError (List Expr × Span × Rest ts) :=
  match argument ts with
  | .error e => .error e
  | .ok (e, after) =>
    match h : after.1 with
    | [] => .error (missing stop .commaOrParen)
    | t :: rest =>
      have shorter : rest.length < ts.length := by
        have := after.2
        rw [h, List.length_cons] at this
        omega
      match t.kind with
      | .rightParen => .ok ([e], t.span, ⟨rest, shorter⟩)
      | .comma =>
        match argumentsRest stop argument rest with
        | .error e => .error e
        | .ok (es, close, tail) => .ok (e :: es, close, ⟨tail.1, by have := tail.2; omega⟩)
      | _ => .error (unexpected t .commaOrParen)
termination_by ts.length

/-- the arguments of a call after `(`, with the span of `)` -/
def arguments (stop : Nat) (argument : Reader Expr) (ts : List Token) :
    Except ParseError (List Expr × Span × Rest ts) :=
  match ts with
  | [] => argumentsRest stop argument []
  | t :: rest =>
    match t.kind with
    | .rightParen => .ok ([], t.span, ⟨rest, Nat.lt_succ_self _⟩)
    | _ => argumentsRest stop argument (t :: rest)

/-- the calls that follow a callee -/
def callsRest (stop : Nat) (argument : Reader Expr) (callee : Expr) (ts : List Token) :
    Except ParseError (Expr × Tail ts) :=
  match ts with
  | [] => .ok (callee, ⟨[], Nat.le_refl _⟩)
  | t :: rest =>
    match t.kind with
    | .leftParen =>
      match arguments stop argument rest with
      | .error e => .error e
      | .ok (args, close, after) =>
        match shallow (.call (callee.span.cover close) callee args) close with
        | .error e => .error e
        | .ok tree =>
          match callsRest stop argument tree after.1 with
          | .error e => .error e
          | .ok (e, tail) => .ok (e, ⟨tail.1, by have := after.2; have := tail.2; simp only [List.length_cons]; omega⟩)
    | _ => .ok (callee, ⟨t :: rest, Nat.le_refl _⟩)
termination_by ts.length
decreasing_by have := after.2; simp only [List.length_cons]; omega

/-- the rest of a list of parameter names after `(` or a comma, up to and including `)` -/
def parametersRest (stop : Nat) : (ts : List Token) → Except ParseError (List (String × Span) × Rest ts)
  | [] => .error (missing stop .parameterName)
  | t :: rest =>
    match t.kind with
    | .name s =>
      match rest with
      | [] => .error (missing stop .commaOrParen)
      | next :: after =>
        match next.kind with
        | .rightParen => .ok ([(s, t.span)], ⟨after, by simp only [List.length_cons]; omega⟩)
        | .comma =>
          match parametersRest stop after with
          | .error e => .error e
          | .ok (ps, tail) => .ok ((s, t.span) :: ps, ⟨tail.1, by have := tail.2; simp only [List.length_cons]; omega⟩)
        | _ => .error (unexpected next .commaOrParen)
    | _ => .error (unexpected t .parameterName)

/-- the parameter names after `(`, each with its place -/
def parameters (stop : Nat) (ts : List Token) : Except ParseError (List (String × Span) × Rest ts) :=
  match ts with
  | [] => parametersRest stop []
  | t :: rest =>
    match t.kind with
    | .rightParen => .ok ([], ⟨rest, Nat.lt_succ_self _⟩)
    | _ => parametersRest stop (t :: rest)

/-- the first name that occurs in the list again, at its second place -/
def firstRepeated? (seen : List String) : List (String × Span) → Option (String × Span)
  | [] => none
  | p :: ps => if p.1 ∈ seen then some p else firstRepeated? (p.1 :: seen) ps

/-- the names, if no one is declared twice -/
def distinct (params : List (String × Span)) : Except ParseError (List String) :=
  match firstRepeated? [] params with
  | some p => .error ⟨.duplicateParameter p.1, p.2⟩
  | none => .ok (params.map Prod.fst)

/-- an expression in parentheses, after `(` at `opening` -/
def parenthesised (stop : Nat) (inner : Reader Expr) (opening : Span) (ts : List Token) :
    Except ParseError (Expr × Rest ts) :=
  match inner ts with
  | .error e => .error e
  | .ok (e, after) =>
    match h : after.1 with
    | [] => .error (missing stop .closingParen)
    | t :: rest =>
      match t.kind with
      | .rightParen =>
        .ok (e.withSpan (opening.cover t.span), ⟨rest, by
          have := after.2
          rw [h, List.length_cons] at this
          omega⟩)
      | _ => .error (unexpected t .closingParen)

/-- a function expression, after the keyword at `keyword` -/
def lambda (stop : Nat) (inner : Reader Expr) (keyword : Span) (ts : List Token) :
    Except ParseError (Expr × Rest ts) :=
  match ts with
  | [] => .error (missing stop .openingParen)
  | t :: rest =>
    match t.kind with
    | .leftParen =>
      match parameters stop rest with
      | .error e => .error e
      | .ok (found, after) =>
        match distinct found with
        | .error e => .error e
        | .ok params =>
          match h : after.1 with
          | [] => .error (missing stop .arrow)
          | arrow :: bodyTokens =>
            match arrow.kind with
            | .symbol .arrow =>
              match inner bodyTokens with
              | .error e => .error e
              | .ok (body, tail) =>
                .ok (.lambda (keyword.cover body.span) params body, ⟨tail.1, by
                  have := after.2
                  have := tail.2
                  simp only [h, List.length_cons] at *
                  omega⟩)
            | _ => .error (unexpected arrow .arrow)
    | _ => .error (unexpected t .openingParen)

/-- a literal, a name, an expression in parentheses or a function expression -/
def primary (stop : Nat) (inner : Reader Expr) : Reader Expr
  | [] => .error (missing stop .expression)
  | t :: rest =>
    match t.kind with
    | .number (.integer n) => .ok (.integer t.span n, ⟨rest, Nat.lt_succ_self _⟩)
    | .number (.float x) => .ok (.float t.span x, ⟨rest, Nat.lt_succ_self _⟩)
    | .name s => .ok (.var t.span s, ⟨rest, Nat.lt_succ_self _⟩)
    | .leftParen =>
      match parenthesised stop inner t.span rest with
      | .error e => .error e
      | .ok (e, tail) => .ok (e, ⟨tail.1, by have := tail.2; simp only [List.length_cons]; omega⟩)
    | .functionKeyword =>
      match lambda stop inner t.span rest with
      | .error e => .error e
      | .ok (e, tail) => .ok (e, ⟨tail.1, by have := tail.2; simp only [List.length_cons]; omega⟩)
    | _ => .error (unexpected t .expression)

/-- a primary expression with the calls after it -/
def postfixed (stop : Nat) (inner : Reader Expr) : Reader Expr := fun ts =>
  match primary stop inner ts with
  | .error e => .error e
  | .ok (e, after) =>
    match callsRest stop inner e after.1 with
    | .error e => .error e
    | .ok (e, tail) => .ok (e, ⟨tail.1, by have := after.2; have := tail.2; omega⟩)

/-- a power, whose exponent is read by `exponent` one level further in -/
def power (stop : Nat) (inner : Reader Expr) (exponent : Span → Reader Expr) : Reader Expr := fun ts =>
  match postfixed stop inner ts with
  | .error e => .error e
  | .ok (base, after) =>
    match h : after.1 with
    | [] => .ok (base, ⟨[], by have := after.2; rw [h] at this; exact this⟩)
    | t :: rest =>
      match t.kind with
      | .symbol .caret =>
        match exponent base.span rest with
        | .error e => .error e
        | .ok (e, tail) => .ok (operation .pow base e, ⟨tail.1, by
            have := after.2
            have := tail.2
            simp only [h, List.length_cons] at *
            omega⟩)
      | _ => .ok (base, ⟨t :: rest, by have := after.2; rw [h] at this; exact this⟩)

/-- the prefix operator that the token stands for -/
def prefixOperator? (t : Token) : Option UnaryOperator :=
  match t.kind with
  | .symbol s => s.unary?
  | _ => none

/-- An operand with its prefix operators. `inner` reads a whole expression and `operand` an operand, both one level
further in; the latter is told where the level is entered. -/
def unary (stop : Nat) (inner : Reader Expr) (operand : Span → Reader Expr) : Reader Expr := fun ts =>
  match ts with
  | [] => power stop inner operand []
  | t :: rest =>
    match prefixOperator? t with
    | none => power stop inner operand (t :: rest)
    | some op =>
      match operand t.span rest with
      | .error e => .error e
      | .ok (e, tail) =>
        .ok (.unary (t.span.cover e.span) op e, ⟨tail.1, by have := tail.2; simp only [List.length_cons]; omega⟩)

/-- a whole expression over the reader of operands -/
def comparison (operand : Reader Expr) : Reader Expr :=
  chain Symbol.comparison? (chain Symbol.additive? (chain Symbol.multiplicative? operand))

/-- an operand, with `levels` more levels to enter -/
def operand (stop : Nat) : Nat → Reader Expr
  | 0 => unary stop (fun ts => .error (tooDeep (nextSpan stop ts))) (fun at_ _ => .error (tooDeep at_))
  | levels + 1 => unary stop (comparison (operand stop levels)) (fun _ => operand stop levels)

/-- an expression at the front of the tokens -/
def expression (stop : Nat) : Reader Expr := comparison (operand stop maxDepth)

end Parser

end CurveScript
