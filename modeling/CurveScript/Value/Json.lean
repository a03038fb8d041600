/-
Values in JSON documents.

A value is an object with its kind and, unless it is unit, its content. Functions and graphs have no content but their
labels, and graphs their ranges.
-/
import CurveScript.Json.Data
import CurveScript.Value

namespace CurveScript

/-- a range with its bounds and step -/
def SampleRange.toJson (r : SampleRange) : JsonData :=
  .object [("start", .number r.start), ("end", .number r.stop), ("step", .number r.step)]

/-- a range where there may be none -/
def rangeJson : Option SampleRange → JsonData
  | some r => r.toJson
  | none => .null

/-- an arity under the name of its form -/
def Arity.toJson : Arity → JsonData
  | .exact n => .object [("Exact", .integer n)]
  | .atLeast n => .object [("AtLeast", .integer n)]
  | .between low high => .object [("Between", .array [.integer low, .integer high])]

/-- a source with the name of its provider -/
def Source.toJson : Source → JsonData
  | .builtin => .object [("kind", .string "builtin")]
  | .plugin provider => .object [("kind", .string "plugin"), ("provider", .string provider)]

/-- the content of a value, if it has one -/
def Value.content? : Value → Option JsonData
  | .integer n => some (.integer n.toInt)
  | .float x => some (.number x)
  | .unit => none
  | .function f => some (.string f.label)
  | .graph g => some (.object [("label", .string g.label), ("range", rangeJson g.range)])

/-- a value with its kind and content -/
def Value.toJson (v : Value) : JsonData :=
  .object (("type", .string v.kind.text) :: match v.content? with
    | some d => [("value", d)]
    | none => [])

end CurveScript
