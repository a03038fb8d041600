/-
The command line program.

Arguments decide what is done. The program reads its settings, makes an engine, and prints a listing, the results of a
script, or the answers of an interactive session. What it needs of its surroundings is a `World`; what it leaves is a
`Conclusion`. Exit status 2 tells that nothing was run, 1 that something failed.
-/
import CurveScript.CommandLine.Session
import CurveScript.Plugin.FileTree

namespace CurveScript.CommandLine

/-- the surroundings of the program -/
structure World where
  environment : Variables
  executableDirectory : Option String
  /-- The content of a file, or why it cannot be read. -/
  contentOf : String → Except String ByteArray
  plugins : PluginSource
  standardInput : ByteArray
  inputIsTerminal : Bool
  /-- Whether writing to standard output fails for want of space. -/
  outputIsFull : Bool

/-- what the program leaves -/
structure Conclusion where
  exit : Nat
  output : String
  errors : String

/-- a line of the program on standard error -/
def complaint (message : String) : String := programName ++ ": " ++ message ++ "\n"

/-- ends with a message before anything was run -/
def Conclusion.failure (message : String) : Conclusion := ⟨2, "", complaint message⟩

/-- the error of a device without space -/
def outOfSpace : String := "No space left on device (os error 28)"

/-- the bytes that wait for their line to be completed before they are written -/
def lineBuffer : Nat := 1024

/-- Whether a full device is noticed: complete lines are written at once, and so is what does not fit the buffer. -/
def noticesFull (text : String) : Bool := text.toList.contains '\n' || lineBuffer ≤ text.utf8ByteSize

/-- prints a text and ends, successfully if `ok` -/
def conclude (w : World) (text : String) (ok : Bool) : Conclusion :=
  if w.outputIsFull then
    if noticesFull text then ⟨1, "", complaint outOfSpace⟩ else ⟨if ok then 0 else 1, "", ""⟩
  else ⟨if ok then 0 else 1, text, ""⟩

/-- the text of bytes -/
def decode (bytes : ByteArray) : Except String String :=
  match String.fromUTF8? bytes with
  | some s => .ok s
  | none => .error Plugin.PathError.notText.message

/-- the text of a file -/
def World.readText (w : World) (path : String) : Except String String :=
  match w.contentOf path with
  | .error e => .error e
  | .ok bytes => decode bytes

/-- the settings of a file, or the standard ones -/
def loadFile (w : World) (path : Option String) : Except ConfigError Config :=
  match path with
  | none => .ok .standard
  | some path =>
    match w.readText path with
    | .error reason => .error (.unreadable path reason)
    | .ok text => Config.ofJson text

/-- the settings of the program -/
def loadConfig (w : World) (o : Options) : Except ConfigError Config :=
  match loadFile w o.config with
  | .error e => .error e
  | .ok fromFile =>
    match fromFile.withVariables w.environment with
    | .error e => .error e
    | .ok c => .ok { c with
        plugins := { c.plugins with enabled := c.plugins.enabled && !o.noPlugins }
        errorPolicy := if o.halt then .halt else c.errorPolicy }

/-- the engine of the program -/
def makeEngine (w : World) (c : Config) : Engine :=
  (Engine.standard 0 c (defaultSearchPaths w.executableDirectory (w.environment "HOME")) w.plugins).1

/-- the text of the bytes of a line, if they are text -/
def lineText (bytes : List UInt8) : Option String := String.fromUTF8? ⟨bytes.toArray⟩

/-- The text of a line that a line feed completes; a carriage return before it does not belong to the line. -/
def completedLine (bytes : List UInt8) : Option String :=
  (lineText bytes).map fun l => if l.endsWith "\r" then String.ofList l.toList.dropLast else l

/-- The lines of an input whose current line has the bytes `line` so far, last byte first. `none` stands for a line
that is no text, and nothing stands for an empty last line. -/
def linesFrom (line : List UInt8) : List UInt8 → List (Option String)
  | [] => if line.isEmpty then [] else [lineText line.reverse]
  | b :: bs => if b = 10 then completedLine line.reverse :: linesFrom [] bs else linesFrom (b :: line) bs

/-- the lines of an input -/
def inputLines (bytes : ByteArray) : List (Option String) := linesFrom [] bytes.data.toList

/-- an interactive session over all of the input -/
def converse (w : World) (o : Options) (e : Engine) : Conclusion :=
  let (text, ok) := Session.transcript o ⟨e, .empty⟩ (inputLines w.standardInput)
  let printed := Session.banner ++ text
  if ok then conclude w printed true
  else { conclude w printed false with errors := complaint Plugin.PathError.notText.message }

/-- the results of a script -/
def runScript (w : World) (o : Options) (e : Engine) (source : String) : Conclusion :=
  match e.run source .empty with
  | .error err => conclude w (if o.json then (lexErrorJson err).sorted.text else lexErrorText err) false
  | .ok (steps, _, e') =>
    let (graphs, _) := sampleGraphs e' o.sample (Engine.graphs steps)
    let ok := steps.all fun s => s.output.toOption.isSome
    conclude w (if o.json then (runJson source steps graphs).sorted.text else runText steps graphs) ok

/-- the script of the program -/
def readScript (w : World) (o : Options) : Except String String :=
  match o.input with
  | none => decode w.standardInput
  | some "-" => decode w.standardInput
  | some path => w.readText path

/-- whether the program talks with a user -/
def World.isConversation (w : World) (o : Options) : Bool :=
  !o.listFunctions && !o.listPlugins && o.input.isNone && w.inputIsTerminal

/-- what the program does with an engine -/
def serve (w : World) (o : Options) (e : Engine) : Conclusion :=
  if o.listFunctions then
    conclude w ((if o.json then (functionsJson e.registry).sorted.text else functionsText e.registry) ++ "\n") true
  else if o.listPlugins then
    conclude w ((if o.json then (pluginsJson e).sorted.text else pluginsText e) ++ "\n") true
  else if w.isConversation o then converse w o e
  else
    match readScript w o with
    | .error message => .failure message
    | .ok source => runScript w o e source

/-- what the program does -/
def run (w : World) (args : List String) : Conclusion :=
  match Options.parse args with
  | .error e => .failure (e.message ++ "\n\n" ++ usage)
  | .ok o =>
    if o.help then conclude w (usage ++ "\n") true
    else if o.showVersion then conclude w (programName ++ " " ++ version ++ "\n") true
    else
      match loadConfig w o with
      | .error e => .failure e.message
      | .ok c => serve w o (makeEngine w c)

end CurveScript.CommandLine
