/-
Values in diagnostics: every field under its name, and what may be missing as `Some(..)` or `None`.
-/
import CurveScript.Text.Quoted
import CurveScript.Value

namespace CurveScript

/-- something that may be missing -/
def inspectOption {α : Type} (show_ : α → String) : Option α → String
  | none => "None"
  | some a => "Some(" ++ show_ a ++ ")"

/-- the fields of a record between braces -/
def inspectRecord (name : String) (fields : List (String × String)) : String :=
  name ++ " \x7b " ++ String.intercalate ", " (fields.map fun f => f.1 ++ ": " ++ f.2) ++ " \x7d"

/-- a range with its fields -/
def SampleRange.inspect (r : SampleRange) : String :=
  inspectRecord "SampleRange" [("start", Double.valueText r.start), ("end", Double.valueText r.stop),
    ("step", Double.valueText r.step)]

/-- an arity by the name of its form -/
def Arity.inspect : Arity → String
  | .exact n => "Exact(" ++ toString n ++ ")"
  | .atLeast n => "AtLeast(" ++ toString n ++ ")"
  | .between low high => "Between(" ++ toString low ++ ", " ++ toString high ++ ")"

/-- a function by its name, arity and own range -/
def FunctionValue.inspect (f : FunctionValue) : String :=
  inspectRecord "Function" [("name", inspectOption Text.quoted f.name), ("arity", f.arity.inspect),
    ("default_range", inspectOption SampleRange.inspect f.ownRange)]

/-- a graph by its function and own range -/
def Graph.inspect (g : Graph) : String :=
  inspectRecord "GraphingFunction" [("function", g.function.inspect),
    ("default_range", inspectOption SampleRange.inspect g.ownRange)]

/-- a value by its kind and fields -/
def Value.inspect : Value → String
  | .integer n => "Integer(" ++ Integer.text n ++ ")"
  | .float x => "Float(" ++ Double.valueText x ++ ")"
  | .unit => "Unit"
  | .function f => "Function(" ++ f.inspect ++ ")"
  | .graph g => "GraphingFunction(" ++ g.inspect ++ ")"

end CurveScript
