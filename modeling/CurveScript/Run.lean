/-
Running a script statement by statement.

The tokens are cut at separators, and each piece is a statement of its own; nothing after the last separator is no
statement. A run holds the tokens that are left and the variable table. One step reads the next statement and evaluates
it against the table, which an assignment or a definition changes only if it succeeds. A statement that cannot be read
ends the run; one that fails to evaluate ends it only under the policy `halt`. An execution is a run together with the
registry that its names mean something in and the policy.
-/
import CurveScript.Evaluation
import CurveScript.Statement

namespace CurveScript

/-- what a run does after a statement fails to evaluate -/
inductive ErrorPolicy where
  | goOn
  | halt
  deriving DecidableEq

/-- the policy as settings name it -/
def ErrorPolicy.text : ErrorPolicy → String
  | goOn => "continue"
  | halt => "halt"

/-! ## Errors of a run -/

/-- the failure of a statement, counted from 1 -/
inductive ScriptError where
  | parse (statement : Nat) (error : ParseError)
  | eval (statement : Nat) (failure : Failure)

namespace ScriptError

/-- the number of the statement that failed -/
def statement : ScriptError → Nat
  | parse n _ | eval n _ => n

/-- the message of a failed statement -/
def message : ScriptError → String
  | parse n e => "statement " ++ toString n ++ " failed: " ++ e.message
  | eval n f => "statement " ++ toString n ++ " failed: " ++ f.error.message

/-- the code by which a program tells errors apart -/
def code : ScriptError → String
  | parse _ _ => "PARSE_ERROR"
  | eval _ f => f.error.code

/-- where the failure is -/
def span : ScriptError → Span
  | parse _ e => e.span
  | eval _ f => f.span

/-- whether a run can go on after the failure -/
def isRecoverable : ScriptError → Bool
  | parse _ _ => false
  | eval _ _ => true

end ScriptError

/-! ## Segments -/

/-- the tokens of the next statement, where it ends in the source, and the tokens after it -/
structure Segment where
  tokens : List Token
  stop : Nat
  rest : List Token

/-- the end of a statement: that of its last token, or of the separator after it if it has none -/
def segmentStop (tokens : List Token) (separator : Option Token) : Nat :=
  match tokens.getLast?, separator with
  | some t, _ => t.span.stop
  | none, some t => t.span.stop
  | none, none => 0

/-- the next statement of the tokens, if any are left -/
def Segment.next? : List Token → Option Segment
  | [] => none
  | t :: ts =>
    let tokens := (t :: ts).takeWhile fun t => !t.isSeparator
    let after := (t :: ts).dropWhile fun t => !t.isSeparator
    some ⟨tokens, segmentStop tokens after.head?, after.drop 1⟩

/-! ## Steps -/

/-- how the reading and evaluating of one statement ended -/
inductive Verdict where
  | unreadable (e : ParseError)
  | evaluated (span : Span) (result : Except Failure Value)

/-- one statement of a run -/
structure Step where
  number : Nat
  verdict : Verdict

/-- what the statement gives -/
abbrev Output := Except ScriptError Value

/-- the result of a step -/
def Step.output (s : Step) : Output :=
  match s.verdict with
  | .unreadable e => .error (.parse s.number e)
  | .evaluated _ (.ok v) => .ok v
  | .evaluated _ (.error f) => .error (.eval s.number f)

/-- the value of a statement, and the table after it -/
def StatementKind.execute (registry : Registry) (table : Bindings Value) :
    StatementKind → Eval Failure (Value × Bindings Value)
  | .empty => pure (.unit, table)
  | .evaluate e => do
    let v ← CurveScript.evaluate (callClosure maxCalls) (.global table registry) e
    pure (v, table)
  | .assign name e => do
    let v ← CurveScript.evaluate (callClosure maxCalls) (.global table registry) e
    pure (.unit, table.set name v)
  | .define name params body => do
    let f ← (Scope.global table registry).makeFunction (some name) params body
    pure (.unit, table.set name (.function f))

/-- a run in progress -/
structure Run where
  tokens : List Token
  statements : Nat
  table : Bindings Value
  nextId : Nat
  finished : Bool

namespace Run

/-- the run before its first statement -/
def start (tokens : List Token) (table : Bindings Value) (nextId : Nat) : Run := ⟨tokens, 0, table, nextId, false⟩

/-- the next statement, and the run after it; a run that is finished has none -/
def step? (registry : Registry) (policy : ErrorPolicy) (r : Run) : Option (Step × Run) :=
  if r.finished then none
  else
    match Segment.next? r.tokens with
    | none => none
    | some segment =>
      let number := r.statements + 1
      let after := { r with tokens := segment.rest, statements := number }
      match Statement.parse segment.tokens segment.stop with
      | .error e => some (⟨number, .unreadable e⟩, { after with finished := true })
      | .ok s =>
        match s.kind.execute registry r.table r.nextId with
        | .ok ((v, table), nextId) =>
          some (⟨number, .evaluated s.span (.ok v)⟩, { after with table := table, nextId := nextId })
        | .error f =>
          some (⟨number, .evaluated s.span (.error f)⟩, { after with finished := decide (policy = .halt) })

/-- at most `limit` steps, the run after them, and whether the end was met -/
def take (registry : Registry) (policy : ErrorPolicy) : Nat → Run → List Step × Run × Bool
  | 0, r => ([], r, false)
  | limit + 1, r =>
    match r.step? registry policy with
    | none => ([], { r with finished := true }, true)
    | some (s, r') =>
      let (steps, last, ended) := take registry policy limit r'
      (s :: steps, last, ended)

/-- All steps: a statement uses up at least one token, so there are no more statements than tokens. -/
def toEnd (registry : Registry) (policy : ErrorPolicy) (r : Run) : List Step × Run × Bool :=
  r.take registry policy (r.tokens.length + 1)

end Run

/-! ## Executions -/

/-- a run with the registry and the policy that it goes by -/
structure Execution where
  run : Run
  registry : Registry
  policy : ErrorPolicy

namespace Execution

/-- The execution of tokens against a table. It goes on after statements that fail to evaluate. -/
def start (tokens : List Token) (table : Bindings Value) (registry : Registry) (nextId : Nat) : Execution :=
  ⟨.start tokens table nextId, registry, .goOn⟩

/-- the execution under another policy -/
def withPolicy (ex : Execution) (policy : ErrorPolicy) : Execution := { ex with policy := policy }

/-- At most `limit` statements, or all of them, the run after them, and whether the end was met. What is left never
runs. -/
def pull (ex : Execution) (limit : Option Nat) : List Step × Run × Bool :=
  match limit with
  | some n => ex.run.take ex.registry ex.policy n
  | none => ex.run.toEnd ex.registry ex.policy

end Execution

end CurveScript
