/-
Values.

The set of values is closed: integers, floats, unit, functions and graphs. A function value is first-order data. It has
an identity, which it keeps wherever it is passed, and a body: either a closure (parameters, an expression, the bindings
and the registry that were in force at its definition) or a native function of the registry. A graph is a function
marked for plotting, perhaps with a range of its own.

Besides the built-in functions and those of plugins, a host can register functions of its own. Such a function looks at
its arguments and chooses its result. It sees no identity and nothing inside a function, and calls none.
-/
import CurveScript.Bindings
import CurveScript.Builtin
import CurveScript.EvalError
import CurveScript.Expr
import CurveScript.Integer
import CurveScript.Plugin.Scalar
import CurveScript.SampleRange

namespace CurveScript

/-- what a function of the host sees of an argument -/
inductive Seen where
  | integer (n : Int64)
  | float (x : Float)
  | unit
  | function (name : Option String) (arity : Arity) (range : Option SampleRange)
  | graph (name : Option String) (arity : Arity) (range : Option SampleRange)

/-- what a function of the host gives -/
inductive Choice where
  | integer (n : Int64)
  | float (x : Float)
  | unit
  /-- The argument at a position. -/
  | argument (i : Nat)
  /-- The value at a position among those that the function keeps. -/
  | kept (i : Nat)

mutual

/-- the results of evaluations -/
inductive Value where
  | integer (n : Int64)
  | float (x : Float)
  | unit
  | function (f : FunctionValue)
  | graph (g : Graph)

/-- a function as a value -/
structure FunctionValue where
  /-- Functions made by expressions have none. -/
  name : Option String
  id : Nat
  body : Body
  ownRange : Option SampleRange

/-- a function marked for plotting -/
structure Graph where
  function : FunctionValue
  ownRange : Option SampleRange

/-- what a call of a function runs -/
inductive Body where
  | script (c : Closure)
  | native (arity : Arity) (call : NativeCall)

/-- a function defined in a script, with all that its body can refer to -/
structure Closure where
  params : List String
  body : Expr
  captured : Bindings Value
  registry : Registry

/-- what a native function does -/
inductive NativeCall where
  | builtin (b : Builtin)
  | plugin (f : Plugin.ExportedFunction)
  /-- A function of the host, with the values that it keeps. -/
  | host (kept : List Value) (rule : List Seen → Except EvalError Choice)

/-- the native functions and the constants that scripts can refer to -/
structure Registry where
  functions : Bindings Registered
  constants : Bindings Constant

/-- a function of the registry -/
structure Registered where
  info : FunctionInfo
  call : NativeCall
  value : FunctionValue
  source : Source

end

/-! ## Labels -/

namespace FunctionValue

/-- how many arguments the function accepts -/
def arity (f : FunctionValue) : Arity :=
  match f.body with
  | .script c => .exact c.params.length
  | .native arity _ => arity

/-- the name in messages -/
def displayName (f : FunctionValue) : String := f.name.getD "fn"

/-- the function as a value is shown -/
def label (f : FunctionValue) : String := "<fn " ++ f.displayName ++ "/" ++ f.arity.text ++ ">"

/-- the same function with a range of its own -/
def withRange (f : FunctionValue) (r : SampleRange) : FunctionValue := { f with ownRange := some r }

end FunctionValue

namespace Graph

/-- the graph's range, or else that of its function -/
def range (g : Graph) : Option SampleRange := g.ownRange <|> g.function.ownRange

/-- the graph as a value is shown -/
def label (g : Graph) : String :=
  "<graph " ++ g.function.displayName ++ "/" ++ g.function.arity.text ++
    (match g.range with
      | some r => " " ++ r.text
      | none => "") ++ ">"

/-- the identity of the function that is plotted -/
def id (g : Graph) : Nat := g.function.id

/-- the range to sample: an explicit one, or else the graph's, or else the fallback -/
def resolveRange (g : Graph) (explicit : Option SampleRange) (fallback : SampleRange) : SampleRange :=
  (explicit <|> g.range).getD fallback

end Graph

/-! ## Views of a value -/

namespace Value

/-- the kind of a value -/
def kind : Value → ValueKind
  | integer _ => .integer
  | float _ => .float
  | unit => .unit
  | function _ => .function
  | graph _ => .graph

/-- the value as it is shown -/
def text : Value → String
  | integer n => Integer.text n
  | float x => Double.valueText x
  | unit => ""
  | function f => f.label
  | graph g => g.label

/-- the integer that the value is -/
def integer? : Value → Option Int64
  | integer n => some n
  | _ => none

/-- a number of either kind as a double -/
def number? : Value → Option Float
  | integer n => some (Integer.toDouble n)
  | float x => some x
  | _ => none

/-- the function that the value is or plots -/
def function? : Value → Option FunctionValue
  | function f => some f
  | graph g => some g.function
  | _ => none

/-- the graph that the value is -/
def graph? : Value → Option Graph
  | graph g => some g
  | _ => none

/-- what a function of the host sees of the value -/
def seen : Value → Seen
  | integer n => .integer n
  | float x => .float x
  | unit => .unit
  | function f => .function f.name f.arity f.ownRange
  | graph g => .graph g.function.name g.function.arity g.range

/-- whether the value is a number -/
def isNumeric : Value → Bool
  | integer _ | float _ => true
  | _ => false

/-- Whether two ranges of graphs are equal, where there may be none. -/
def sameRange : Option SampleRange → Option SampleRange → Bool
  | none, none => true
  | some a, some b => a.same b
  | _, _ => false

/-- Equality of values: numbers of one kind by their number, functions by their identity, graphs by the identity of
their function and their range. -/
def same : Value → Value → Bool
  | integer a, integer b => a == b
  | float a, float b => a == b
  | unit, unit => true
  | function f, function g => f.id == g.id
  | graph g, graph h => g.id == h.id && sameRange g.range h.range
  | _, _ => false

end Value

/-- The value that is chosen. Positions out of range give unit. -/
def Choice.value (keeps args : List Value) : Choice → Value
  | integer n => .integer n
  | float x => .float x
  | unit => .unit
  | argument i => args.getD i .unit
  | kept i => keeps.getD i .unit

end CurveScript
