/-
Interactive sessions: one line is one run, and all runs share a table of variables.
-/
import CurveScript.CommandLine.Options
import CurveScript.CommandLine.Report
import CurveScript.Text.Blank

namespace CurveScript.CommandLine

/-- an engine with the table of a session -/
structure Session where
  engine : Engine
  table : Bindings Value

namespace Session

/-- the line shown at the start -/
def banner : String := programName ++ " " ++ version ++ " (:vars lists bindings, :quit exits)\n"

/-- what asks for a line -/
def prompt : String := "ps> "

/-- the bindings of a table, a line for each -/
def bindingsText (table : Bindings Value) : String :=
  String.join (table.entries.map fun b => b.1 ++ " = " ++ b.2.text ++ "\n")

/-- the answer to a line that is run as a script -/
def runLine (options : Options) (s : Session) (line : String) : String × Session :=
  match s.engine.run line s.table with
  | .error e => (lexErrorText e ++ "\n", s)
  | .ok (steps, table, engine) =>
    let (graphs, engine) := sampleGraphs engine options.sample (Engine.graphs steps)
    let text :=
      if options.json then (runJson line steps graphs).sorted.text ++ "\n" else runText steps graphs
    (text, ⟨engine, table⟩)

/-- the answer to a line, or nothing if the session ends -/
def answer? (options : Options) (s : Session) (line : String) : Option (String × Session) :=
  match Text.trimmed line with
  | "" => some ("", s)
  | ":quit" => none
  | ":q" => none
  | ":vars" => some (bindingsText s.table, s)
  | _ => some (runLine options s line)

/-- All that is printed after the prompt for the given lines; `none` in their place is a line that is no text, whose
error ends the session. -/
def transcript (options : Options) (s : Session) : List (Option String) → String × Bool
  | [] => (prompt, true)
  | none :: _ => (prompt, false)
  | some line :: lines =>
    match answer? options s line with
    | none => (prompt, true)
    | some (text, s') =>
      let (rest, ok) := transcript options s' lines
      (prompt ++ text ++ rest, ok)

end Session

end CurveScript.CommandLine
