/-
The program's surroundings.

Arguments, variables, files and standard input are read here and handed to `CommandLine.run`; what it leaves is
written here. A conversation with a terminal is answered line by line. No native libraries are opened, so no directory
is searched for plugins.
-/
import CurveScript.CommandLine.Program

namespace CurveScript.CommandLine

/-- all that can be read from a stream, after what was read before -/
partial def readAll (input : IO.FS.Stream) (before : ByteArray) : IO ByteArray := do
  let bytes ← input.read 65536
  if bytes.isEmpty then return before else readAll input (before ++ bytes)

/-- the variables that the program looks at -/
def readVariables : IO Variables := do
  let names := ["HOME", Environment.plugins, Environment.pluginPath, Environment.conflictLog, Environment.errorPolicy]
  let values ← names.mapM fun name => do return (name, ← IO.getEnv name)
  return fun name => (values.lookup name).bind id

/-- why a file cannot be read -/
def reason : IO.Error → String
  | .noFileOrDirectory _ _ _ => Plugin.PathError.notFound.message
  | .inappropriateType _ 20 _ => Plugin.PathError.notADirectory.message
  | .inappropriateType _ 21 _ => Plugin.PathError.isADirectory.message
  | e => toString e

/-- the content of a file, or why it cannot be read -/
def readContent (path : String) : IO (Except String ByteArray) := do
  match ← (IO.FS.readBinFile path).toBaseIO with
  | .ok bytes => return .ok bytes
  | .error e => return .error (reason e)

/-- the files that the options name -/
def readFiles (o : Options) : IO (List (String × Except String ByteArray)) :=
  (o.config.toList ++ o.input.toList).mapM fun path => do return (path, ← readContent path)

/-- what surrounds the program when it runs with the options -/
def surroundings (o : Options) : IO World := do
  let input ← IO.getStdin
  let terminal ← input.isTty
  let files ← readFiles o
  let directory ← IO.appDir
  let readsInput := o.input == some "-" || (o.input.isNone && !terminal)
  return {
    environment := ← readVariables
    executableDirectory := some directory.toString
    contentOf := fun path => (files.lookup path).getD (.error Plugin.PathError.notFound.message)
    plugins := fun roots => ⟨roots.map fun r => (r, false), []⟩
    standardInput := ← if readsInput then readAll input .empty else pure .empty
    inputIsTerminal := terminal
    outputIsFull := false }

/-- answers the lines of a terminal until they end or the user does -/
partial def converseLines (o : Options) (s : Session) (input output : IO.FS.Stream) : IO Unit := do
  output.putStr Session.prompt
  output.flush
  let line ← input.getLine
  if line.isEmpty then return
  match s.answer? o (if line.endsWith "\n" then (line.dropEnd 1).toString else line) with
  | none => return
  | some (text, s') =>
    output.putStr text
    converseLines o s' input output

/-- writes what the program leaves -/
def finish (c : Conclusion) : IO UInt32 := do
  (← IO.getStdout).putStr c.output
  (← IO.getStderr).putStr c.errors
  return c.exit.toUInt32

end CurveScript.CommandLine

open CurveScript CurveScript.CommandLine in
def main (args : List String) : IO UInt32 := do
  let o := (Options.parse args).toOption.getD .none
  let w ← surroundings o
  if w.isConversation o && !o.help && !o.showVersion && (Options.parse args).toOption.isSome then
    match loadConfig w o with
    | .error e => finish (.failure e.message)
    | .ok c =>
      (← IO.getStdout).putStr Session.banner
      converseLines o ⟨makeEngine w c, .empty⟩ (← IO.getStdin) (← IO.getStdout)
      return 0
  else finish (run w args)
