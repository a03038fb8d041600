/-
Scalar functions of plugins.

A plugin function takes doubles and gives one double, a fault, or crashes. Its entry point is what a plugin library
exports: it is given a block of arguments, their count and a slot for the result, checks them before the function sees
them, and answers with a status; the slot is written only together with the status `ok`.
-/
import CurveScript.FunctionInfo

namespace CurveScript.Plugin

/-- failures that a scalar function reports itself -/
inductive Fault where
  | domain
  | invalidArguments
  deriving DecidableEq

/-- how a run of a scalar function ends -/
inductive Outcome where
  | value (x : Float)
  | fault (f : Fault)
  | crashed

/-- a function on doubles, only ever run on as many arguments as its arity says -/
structure ScalarFunction where
  name : String
  arity : Nat
  run : List Float → Outcome

/-! The statuses that an entry point answers with. -/

namespace Status

def ok : Int := 0
def domain : Int := 1
def argumentCount : Int := 2
def invalidArguments : Int := 3
def crashed : Int := 4

end Status

/-- the answer of an entry point: its status, and what it wrote into the result slot -/
structure Reply where
  status : Int
  written : Option Float

/-- The call of an entry point: the block of arguments (there may be none), their count, and whether there is a slot
for the result. -/
structure Request where
  block : Option (List Float)
  count : Nat
  hasSlot : Bool

/-- the status of a fault -/
def Fault.status : Fault → Int
  | domain => Status.domain
  | invalidArguments => Status.invalidArguments

/-- the answer to a call that passed the checks -/
def Outcome.reply : Outcome → Reply
  | value x => ⟨Status.ok, some x⟩
  | fault f => ⟨f.status, none⟩
  | crashed => ⟨Status.crashed, none⟩

/-- a way to run scalar functions, with a state -/
abbrev Runner (σ : Type) := ScalarFunction → List Float → σ → Outcome × σ

/-- runs a function, and nothing else -/
def Runner.plain : Runner Unit := fun f xs s => (f.run xs, s)

/-- The entry point of a scalar function, with a runner. A missing slot or a missing block of arguments is noticed before
a wrong count. -/
def ScalarFunction.enterBy {σ : Type} (runner : Runner σ) (f : ScalarFunction) (r : Request) (s : σ) : Reply × σ :=
  if !r.hasSlot || (r.block.isNone && 0 < r.count) then (⟨Status.invalidArguments, none⟩, s)
  else if r.count ≠ f.arity then (⟨Status.argumentCount, none⟩, s)
  else
    let (o, s') := runner f (r.block.getD []) s
    (o.reply, s')

/-- the entry point of a scalar function -/
def ScalarFunction.enter (f : ScalarFunction) (r : Request) : Reply := (f.enterBy .plain r ()).1

/-- An entry point as a host sees it, which always gives a block of arguments with its true count, and a slot. -/
abbrev Entry := List Float → Reply

/-- the scalar function's entry point for a host -/
def ScalarFunction.entry (f : ScalarFunction) : Entry := fun args => f.enter ⟨some args, args.length, true⟩

/-- a function that a plugin exports, as the host keeps it -/
structure ExportedFunction where
  name : String
  plugin : String
  arity : Nat
  entry : Entry

/-- a way to enter exported functions, with a state -/
abbrev Entrance (σ : Type) := ExportedFunction → List Float → σ → Reply × σ

/-- enters a function, and nothing else -/
def Entrance.plain : Entrance Unit := fun f xs s => (f.entry xs, s)

/-- the description of an exported function -/
def ExportedFunction.info (f : ExportedFunction) : FunctionInfo :=
  { FunctionInfo.plain f.name (.exact f.arity) with
    description := "Provided by plugin '" ++ f.plugin ++ "'", category := "plugin" }

end CurveScript.Plugin
