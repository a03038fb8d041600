/-
What the built-in functions compute.

Each function takes the list of its arguments as it is given, and so reports a missing argument itself where it is
called without a check of the count. Results are never infinite or not a number.
-/
import CurveScript.Value.Arithmetic

namespace CurveScript.Builtin

/-- the numeric argument at a position -/
def number (function : String) (args : List Value) (index : Nat) : Except EvalError Float :=
  match args[index]? with
  | none => .error (.wrongArgumentCount function (.atLeast (index + 1)) args.length)
  | some v =>
    match v.number? with
    | some x => .ok x
    | none => .error (.invalidOperand function v.kind)

/-- a float result, unless it is infinite or not a number -/
def float (function : String) (x : Float) : Except EvalError Value :=
  if x.isNaN then .error (.domain function "result is not a number")
  else if x.isFinite then .ok (.float x)
  else .error (.overflow function)

/-- a function of one number -/
def ofNumber (function : String) (args : List Value) (f : Float → Float) : Except EvalError Value :=
  match number function args 0 with
  | .error e => .error e
  | .ok x => float function (f x)

/-- a function of one number that meets a requirement -/
def ofNumberWhere (function : String) (args : List Value) (accepted : Float → Bool) (requirement : String)
    (f : Float → Float) : Except EvalError Value :=
  match number function args 0 with
  | .error e => .error e
  | .ok x =>
    if accepted x then float function (f x)
    else .error (.domain function (requirement ++ " (got " ++ Double.messageText x ++ ")"))

/-- the size of a number, which keeps integers integral -/
def absolute (args : List Value) : Except EvalError Value :=
  match args.head? with
  | some (.integer n) =>
    match Integer.abs? n with
    | some m => .ok (.integer m)
    | none => .error (.overflow "abs")
  | _ => ofNumber "abs" args Float.abs

/-- a rounding function, which leaves integers alone -/
def rounding (function : String) (args : List Value) (f : Float → Float) : Except EvalError Value :=
  match args.head? with
  | some (.integer n) => .ok (.integer n)
  | _ => ofNumber function args f

/-- the power function -/
def power (args : List Value) : Except EvalError Value :=
  match number "pow" args 1 with
  | .error e => .error e
  | .ok _ =>
    match args with
    | base :: exponent :: _ => Value.binary .pow base exponent
    | _ => .error (.wrongArgumentCount "pow" (.atLeast 2) args.length)

/-- whether `pick` holds between two values, which must be numbers -/
def better (pick : BinaryOperator) (v best : Value) : Except EvalError Bool :=
  match Value.binary pick v best with
  | .error e => .error e
  | .ok r => .ok (r.same (.integer 1))

/-- the best of the arguments from the second on, against the best so far -/
def bestOf (function : String) (pick : BinaryOperator) (best : Value) : List Value → Except EvalError Value
  | [] => .ok best
  | v :: vs =>
    match number function [v] 0 with
    | .error e => .error e
    | .ok _ =>
      match better pick v best with
      | .error e => .error e
      | .ok true => bestOf function pick v vs
      | .ok false => bestOf function pick best vs

/-- whether the value is an integer -/
def isInteger (v : Value) : Bool := v.integer?.isSome

/-- the least or greatest argument, an integer if all of them are -/
def extremum (function : String) (pick : BinaryOperator) (args : List Value) : Except EvalError Value :=
  match args with
  | [] => .error (.wrongArgumentCount function (.atLeast 1) 0)
  | v :: vs =>
    match number function [v] 0 with
    | .error e => .error e
    | .ok _ =>
      match bestOf function pick v vs with
      | .error e => .error e
      | .ok best =>
        if args.all isInteger then .ok best
        else
          match number function [best] 0 with
          | .error e => .error e
          | .ok x => float function x

/-! ## Graphs -/

/-- the number of steps of a graph that is given bounds but no step -/
def defaultIntervals : Nat := 200

/-- the failure to make a range -/
def invalidRange (low high : Float) (step : Option Float) : EvalError :=
  .domain "plot" ("invalid range [" ++ Double.messageText low ++ ", " ++ Double.messageText high ++ "]" ++
    match step with
    | some s => " with step " ++ Double.messageText s
    | none => "")

/-- the range that the arguments after the function give -/
def plotRange (args : List Value) : Except EvalError (Option SampleRange) :=
  match args.length with
  | 1 => .ok none
  | 3 =>
    match number "plot" args 1, number "plot" args 2 with
    | .error e, _ => .error e
    | _, .error e => .error e
    | .ok low, .ok high =>
      match SampleRange.split? low high defaultIntervals with
      | some r => .ok (some r)
      | none => .error (invalidRange low high none)
  | 4 =>
    match number "plot" args 1, number "plot" args 2, number "plot" args 3 with
    | .error e, _, _ => .error e
    | _, .error e, _ => .error e
    | _, _, .error e => .error e
    | .ok low, .ok high, .ok step =>
      match SampleRange.make? low high step with
      | some r => .ok (some r)
      | none => .error (invalidRange low high (some step))
  | _ => .error (.domain "plot" "expected plot(f), plot(f, lo, hi) or plot(f, lo, hi, step)")

/-- Marks a function of one argument as a graph. A graph that is marked again loses its range. -/
def plotFunction (args : List Value) : Except EvalError Value :=
  match args with
  | [] => .error (.wrongArgumentCount "plot" (.between 1 4) 0)
  | v :: _ =>
    match v.function? with
    | none => .error (.invalidOperand "plot" v.kind)
    | some f =>
      if f.arity.accepts 1 then
        match plotRange args with
        | .error e => .error e
        | .ok range => .ok (.graph ⟨f, range⟩)
      else .error (.domain "plot" (f.label ++ " must take one argument"))

/-- whether the number lies between -1 and 1 -/
def inUnitInterval (x : Float) : Bool := -1.0 ≤ x && x ≤ 1.0

/-- the function on a list of arguments of any length -/
def call (b : Builtin) (args : List Value) : Except EvalError Value :=
  match b with
  | sqrt => ofNumberWhere "sqrt" args (fun x => 0.0 ≤ x) "x must be non-negative" Float.sqrt
  | abs => absolute args
  | exp => ofNumber "exp" args Float.exp
  | ln => ofNumberWhere "ln" args (fun x => 0.0 < x) "x must be positive" Float.log
  | log10 => ofNumberWhere "log10" args (fun x => 0.0 < x) "x must be positive" Float.log10
  | pow => power args
  | floor => rounding "floor" args Float.floor
  | ceil => rounding "ceil" args Float.ceil
  | round => rounding "round" args Float.round
  | min => extremum "min" .lt args
  | max => extremum "max" .gt args
  | sin => ofNumber "sin" args Float.sin
  | cos => ofNumber "cos" args Float.cos
  | tan => ofNumber "tan" args Float.tan
  | asin => ofNumberWhere "asin" args inUnitInterval "x must be within [-1, 1]" Float.asin
  | acos => ofNumberWhere "acos" args inUnitInterval "x must be within [-1, 1]" Float.acos
  | atan => ofNumber "atan" args Float.atan
  | plot => plotFunction args

end CurveScript.Builtin
