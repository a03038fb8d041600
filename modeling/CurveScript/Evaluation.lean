/-
Evaluating expressions.

A name is a parameter, or else a bound variable, or else a constant of the registry, or else one of its functions. A
lambda captures all bindings in force, so a function sees the variables as they were when it was defined. Calling a
script function evaluates its body in the captured bindings, and at most `maxCalls` such calls are active at once.

Evaluation is structural. `evaluate` recurses on the expression and is told how a closure is called; `callClosure`
recurses on the number of calls that may still become active. Identities for new functions come from a counter, the
state of the evaluation.
-/
import CurveScript.Registry

namespace CurveScript

/-- the number of script functions that may be active at once -/
def maxCalls : Nat := 128

/-- an evaluation error and the expression that it belongs to -/
structure Failure where
  error : EvalError
  span : Span

/-- evaluations draw fresh identities from a counter and may fail -/
abbrev Eval (ε α : Type) := StateT Nat (Except ε) α

/-- how a closure is called with as many arguments as it has parameters -/
abbrev Invoke := Closure → List Value → Eval EvalError Value

/-- fails with an error -/
def Eval.fail {ε α : Type} (e : ε) : Eval ε α := fun _ => .error e

/-- the outcome of an operation that needs no state -/
def Eval.lift {ε α : Type} (r : Except ε α) : Eval ε α := fun n =>
  match r with
  | .ok a => .ok (a, n)
  | .error e => .error e

/-- an evaluation whose errors belong to the expression at a span -/
def Eval.located {α : Type} (span : Span) (x : Eval EvalError α) : Eval Failure α := fun n =>
  match x n with
  | .ok r => .ok r
  | .error e => .error ⟨e, span⟩

/-- an evaluation whose errors have lost their place -/
def Eval.unlocated {α : Type} (x : Eval Failure α) : Eval EvalError α := fun n =>
  match x n with
  | .ok r => .ok r
  | .error f => .error f.error

/-- Calls a function, after a check of the number of arguments, with a way to enter functions of plugins. What is entered
in the body of a closure is up to `invoke`. -/
def FunctionValue.callWithBy {σ : Type} (entrance : Plugin.Entrance σ) (invoke : Invoke) (f : FunctionValue)
    (args : List Value) (nextId : Nat) (s : σ) : Except EvalError (Value × Nat) × σ :=
  if f.arity.accepts args.length then
    match f.body with
    | .script c => (invoke c args nextId, s)
    | .native _ call =>
      let (r, s') := call.callBy entrance args s
      (Eval.lift r nextId, s')
  else (.error (.wrongArgumentCount f.displayName f.arity args.length), s)

/-- calls a function, after a check of the number of arguments -/
def FunctionValue.callWith (invoke : Invoke) (f : FunctionValue) (args : List Value) : Eval EvalError Value :=
  fun nextId => (f.callWithBy .plain invoke args nextId ()).1

theorem FunctionValue.callWith_eq (invoke : Invoke) (f : FunctionValue) (args : List Value) :
    f.callWith invoke args =
      if f.arity.accepts args.length then
        match f.body with
        | .script c => invoke c args
        | .native _ call => Eval.lift (call.call args)
      else Eval.fail (.wrongArgumentCount f.displayName f.arity args.length) := by
  funext nextId
  unfold callWith callWithBy
  split
  · cases f.body <;> rfl
  · rfl

/-- what names mean in an expression -/
structure Scope where
  params : List String
  args : List Value
  table : Bindings Value
  registry : Registry

namespace Scope

/-- outside of any function -/
def global (table : Bindings Value) (registry : Registry) : Scope := ⟨[], [], table, registry⟩

/-- the parameter or variable of a name -/
def local? (s : Scope) (name : String) : Option Value :=
  match (s.params.zip s.args).lookup name with
  | some v => some v
  | none => s.table.get? name

/-- what a name stands for as an expression -/
def lookup (s : Scope) (name : String) : Except EvalError Value :=
  match s.local? name with
  | some v => .ok v
  | none =>
    match s.registry.constant? name with
    | some x => .ok (.float x)
    | none =>
      match s.registry.function? name with
      | some f => .ok (.function f)
      | none => .error (.undefinedSymbol name)

/-- the function that a value is or plots -/
def callable (v : Value) : Except EvalError FunctionValue :=
  match v.function? with
  | some f => .ok f
  | none => .error (.notCallable v.kind)

/-- what a name stands for in front of arguments: constants are no functions -/
def callee (s : Scope) (name : String) : Except EvalError FunctionValue :=
  match s.local? name with
  | some v => callable v
  | none =>
    match s.registry.function? name with
    | some f => .ok f
    | none => .error (.undefinedSymbol name)

/-- all bindings in force -/
def captured (s : Scope) : Bindings Value :=
  (s.params.zip s.args).foldl (fun t p => t.set p.1 p.2) s.table

/-- a new function that is defined here -/
def makeFunction {ε : Type} (s : Scope) (name : Option String) (params : List String) (body : Expr) :
    Eval ε FunctionValue := fun n =>
  .ok (⟨name, n, .script ⟨params, body, s.captured, s.registry⟩, none⟩, n + 1)

end Scope

mutual

/-- the value of an expression -/
def evaluate (invoke : Invoke) (s : Scope) : Expr → Eval Failure Value
  | .integer _ n => pure (.integer n)
  | .float _ x => pure (.float x)
  | .var span name => Eval.located span (Eval.lift (s.lookup name))
  | .unary span op e => do
    let v ← evaluate invoke s e
    Eval.located span (Eval.lift (v.unary op))
  | .binary span op lhs rhs => do
    let l ← evaluate invoke s lhs
    let r ← evaluate invoke s rhs
    Eval.located span (Eval.lift (Value.binary op l r))
  | .call span (.var at_ name) args => do
    let f ← Eval.located at_ (Eval.lift (s.callee name))
    let vs ← evaluateAll invoke s args
    Eval.located span (f.callWith invoke vs)
  | .call span callee args => do
    let v ← evaluate invoke s callee
    let f ← Eval.located callee.span (Eval.lift (Scope.callable v))
    let vs ← evaluateAll invoke s args
    Eval.located span (f.callWith invoke vs)
  | .lambda _ params body => do
    let f ← s.makeFunction none params body
    pure (.function f)

/-- the values of arguments, from left to right -/
def evaluateAll (invoke : Invoke) (s : Scope) : List Expr → Eval Failure (List Value)
  | [] => pure []
  | e :: es => do
    let v ← evaluate invoke s e
    let vs ← evaluateAll invoke s es
    pure (v :: vs)

end

/-- calls a closure while `calls` more script functions may become active -/
def callClosure : Nat → Invoke
  | 0 => fun _ _ => Eval.fail (.recursionLimit maxCalls)
  | calls + 1 => fun c args =>
    Eval.unlocated (evaluate (callClosure calls) ⟨c.params, args, c.captured, c.registry⟩ c.body)

/-- calls a function from outside of any script function -/
def FunctionValue.call (f : FunctionValue) (args : List Value) : Eval EvalError Value :=
  f.callWith (callClosure maxCalls) args

/-- a graph at one x-value -/
def Graph.invoke (g : Graph) (x : Float) : Eval EvalError Value := g.function.call [.float x]

/-- calls a value with a single number -/
def Value.invoke (v : Value) (x : Float) : Eval EvalError Value :=
  match v.function? with
  | some f => f.call [.float x]
  | none => Eval.fail (.notCallable v.kind)

end CurveScript
