/-
What the command line prints about runs, functions and plugins, as text and as JSON.
-/
import CurveScript.Engine
import CurveScript.Value.Json

namespace CurveScript.CommandLine

/-! ## Runs -/

/-- the line of one result; unit has none, and graphs are told of after all results -/
def outputText (o : Output) : String :=
  match o with
  | .ok .unit => ""
  | .ok (.graph _) => ""
  | .ok v => "> " ++ v.text ++ "\n"
  | .error e => "----- " ++ e.message ++ " -----\n"

/-- the lines of a curve: its points, then its failures -/
def curveText (c : Curve) : String :=
  String.join (c.points.map fun p => Double.messageText p.1 ++ "\t" ++ Double.messageText p.2 ++ "\n") ++
    String.join (c.failures.map fun f => Double.messageText f.x ++ "\t# " ++ f.message ++ "\n")

/-- graphs with their curves if they are asked for, each swept point by point, and the engine after sampling them -/
def sampleGraphs (e : Engine) (sample : Bool) : List Graph → List (Graph × Option Curve) × Engine
  | [] => ([], e)
  | g :: gs =>
    if sample then
      let (curve, e') := e.sample g none []
      let (rest, last) := sampleGraphs e' sample gs
      ((g, some curve) :: rest, last)
    else
      let (rest, last) := sampleGraphs e sample gs
      ((g, none) :: rest, last)

/-- the lines of a graph -/
def graphText (g : Graph × Option Curve) : String :=
  "graph " ++ g.1.label ++ "\n" ++ match g.2 with
    | some c => curveText c
    | none => ""

/-- a run as text -/
def runText (steps : List Step) (graphs : List (Graph × Option Curve)) : String :=
  String.join (steps.map fun s => outputText s.output) ++ String.join (graphs.map graphText)

/-- a failed statement with its line and column -/
def errorJson (source : String) (e : ScriptError) : JsonData :=
  let (line, column) := e.span.lineColumn source
  .object [("statement", .integer e.statement), ("error", .string e.message), ("code", .string e.code),
    ("line", .integer line), ("column", .integer column)]

/-- one result -/
def outputJson (source : String) (s : Step) : JsonData :=
  match s.output with
  | .ok v => .object [("statement", .integer s.number), ("value", v.toJson)]
  | .error e => errorJson source e

/-- a curve -/
def curveJson (c : Curve) : JsonData :=
  .object [("range", c.range.toJson),
    ("points", .array (c.points.map fun p => .array [.number p.1, .number p.2])),
    ("failures", .array (c.failures.map fun f => .object [("x", .number f.x), ("error", .string f.message)]))]

/-- a graph -/
def graphJson (g : Graph × Option Curve) : JsonData :=
  .object (("graph", .string g.1.label) :: match g.2 with
    | some c => [("curve", curveJson c)]
    | none => [])

/-- a run as JSON -/
def runJson (source : String) (steps : List Step) (graphs : List (Graph × Option Curve)) : JsonData :=
  .object [("outputs", .array (steps.map (outputJson source))), ("graphs", .array (graphs.map graphJson))]

/-- a text that has no tokens -/
def lexErrorText (e : LexError) : String := "----- " ++ e.message ++ " -----"

/-- a text that has no tokens, as JSON -/
def lexErrorJson (e : LexError) : JsonData :=
  .object [("error", .string e.message), ("code", .string "LEX_ERROR")]

/-! ## Listings -/

/-- the text filled up with spaces to a width in characters -/
def padded (width : Nat) (s : String) : String :=
  s ++ String.ofList (List.replicate (width - s.length) ' ')

/-- the line of a function -/
def functionLine (f : Registered) : String :=
  padded 10 f.info.name ++ " " ++ padded 28 f.info.usage ++ " " ++ padded 8 f.info.category ++ " " ++
    padded 12 f.source.text ++ " " ++ f.info.description

/-- the line of a constant -/
def constantLine (c : Constant) : String :=
  padded 10 c.name ++ " = " ++ Double.messageText c.value ++ "  " ++ c.description

/-- all functions and constants as text -/
def functionsText (r : Registry) : String :=
  String.intercalate "\n" (r.listing.map functionLine ++ r.constantListing.map constantLine)

/-- a function -/
def functionJson (f : Registered) : JsonData :=
  .object [("name", .string f.info.name), ("description", .string f.info.description),
    ("usage", .string f.info.usage), ("arity", f.info.arity.toJson), ("category", .string f.info.category),
    ("source", f.source.toJson)]

/-- a constant -/
def constantJson (c : Constant) : JsonData :=
  .object [("name", .string c.name), ("value", .number c.value), ("description", .string c.description)]

/-- all functions and constants as JSON -/
def functionsJson (r : Registry) : JsonData :=
  .object [("functions", .array (r.listing.map functionJson)),
    ("constants", .array (r.constantListing.map constantJson))]

/-- the line of a plugin that was loaded -/
def loadedLine (p : Plugin.Loaded) : String :=
  "loaded  " ++ p.name ++ " (" ++ p.path ++ "): " ++ String.intercalate ", " p.functions

/-- the line of a candidate that was skipped -/
def skippedLine (c : Plugin.Skipped) : String := "skipped " ++ c.path ++ ": " ++ c.reason

/-- the line of a function that was dropped -/
def droppedLine (c : Plugin.Conflict) : String :=
  "dropped " ++ c.function ++ " from plugin '" ++ c.plugin ++ "', already provided by " ++ c.existing.text

/-- what the loader found, as text -/
def pluginsText (e : Engine) : String :=
  let r := e.report
  let lines := (if e.config.plugins.enabled then [] else ["plugin loading is disabled"]) ++
    r.loaded.map loadedLine ++ r.skipped.map skippedLine ++ r.conflicts.map droppedLine
  if lines.isEmpty then "no plugins found" else String.intercalate "\n" lines

/-- a list of texts -/
def textsJson (texts : List String) : JsonData := .array (texts.map .string)

/-- a report of the loader -/
def reportJson (r : Plugin.Report) : JsonData :=
  .object [
    ("loaded", .array (r.loaded.map fun p =>
      .object [("name", .string p.name), ("path", .string p.path), ("functions", textsJson p.functions)])),
    ("skipped", .array (r.skipped.map fun c => .object [("path", .string c.path), ("reason", .string c.reason)])),
    ("conflicts", .array (r.conflicts.map fun c =>
      .object [("function", .string c.function), ("plugin", .string c.plugin), ("path", .string c.path),
        ("existing", c.existing.toJson)]))]

/-- what the loader found, as JSON -/
def pluginsJson (e : Engine) : JsonData :=
  .object [("enabled", .bool e.config.plugins.enabled), ("search_paths", textsJson e.roots),
    ("report", reportJson e.report)]

end CurveScript.CommandLine
