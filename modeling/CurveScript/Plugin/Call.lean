/-
Calling an exported function from a script.

Arguments are turned into doubles, the entry point is called once, and its status decides the result: only with the
status `ok` is the slot used, and only a finite number in it is a value. The slot holds zero before the call.
-/
import CurveScript.Value

namespace CurveScript.Plugin

/-- a failure reported under the function's name -/
def ExportedFunction.failure (f : ExportedFunction) (message : String) : EvalError := .plugin f.name message

/-- the arguments as doubles, counted from `position` in messages -/
def ExportedFunction.scalars (f : ExportedFunction) (position : Nat) : List Value → Except EvalError (List Float)
  | [] => .ok []
  | v :: vs =>
    match v.number? with
    | none =>
      .error (f.failure ("argument " ++ toString position ++ " is " ++ v.kind.text ++ ", expected a number"))
    | some x => (f.scalars (position + 1) vs).map (x :: ·)

/-- the result of a call with `count` arguments that was answered in this way -/
def ExportedFunction.result (f : ExportedFunction) (count : Nat) (r : Reply) : Except EvalError Value :=
  if r.status = Status.ok then
    let x := r.written.getD 0.0
    if x.isFinite then .ok (.float x) else .error (f.failure "returned a non-finite result")
  else if r.status = Status.domain then .error (.domain f.name "argument outside the function's domain")
  else if r.status = Status.argumentCount then .error (.wrongArgumentCount f.name (.exact f.arity) count)
  else if r.status = Status.invalidArguments then .error (f.failure "rejected its arguments")
  else if r.status = Status.crashed then .error (f.failure "panicked")
  else .error (f.failure ("failed with status " ++ toString r.status))

/-- the function on a list of arguments of any length, with a way to enter it -/
def ExportedFunction.callBy {σ : Type} (entrance : Entrance σ) (f : ExportedFunction) (args : List Value) (s : σ) :
    Except EvalError Value × σ :=
  match f.scalars 1 args with
  | .error e => (.error e, s)
  | .ok xs =>
    let (r, s') := entrance f xs s
    (f.result args.length r, s')

/-- the function on a list of arguments of any length -/
def ExportedFunction.call (f : ExportedFunction) (args : List Value) : Except EvalError Value :=
  (f.callBy .plain args ()).1

end CurveScript.Plugin
