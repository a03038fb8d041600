/-
The arguments of the command line.
-/

namespace CurveScript.CommandLine

/-- the name under which the program speaks -/
def programName : String := "plotscript"

/-- the version that the program shows -/
def version : String := "0.1.0"

/-- the help text -/
def usage : String := String.intercalate "\n" [
  "usage: " ++ programName ++ " [options] [FILE|-]",
  "",
  "options:",
  "  --config FILE      read engine settings from a JSON file",
  "  --no-plugins       do not load plugin modules",
  "  --halt             stop at the first failing statement",
  "  --sample           print the points of every graph produced",
  "  --json             print results as JSON",
  "  --list-functions   list built-in and plugin functions",
  "  --plugins          show what the plugin loader found",
  "  -h, --help         show this help",
  "  -V, --version      show the version"]

/-- what the arguments ask for -/
structure Options where
  config : Option String
  noPlugins : Bool
  halt : Bool
  sample : Bool
  json : Bool
  listFunctions : Bool
  listPlugins : Bool
  help : Bool
  showVersion : Bool
  /-- The script file; `none` and `-` stand for standard input. -/
  input : Option String

/-- nothing asked for -/
def Options.none : Options := ⟨.none, false, false, false, false, false, false, false, false, .none⟩

/-- why arguments are refused -/
inductive UsageError where
  | missingConfigFile
  | unknownOption (arg : String)
  | unexpectedArgument (arg : String)
  deriving DecidableEq

/-- the message of a usage error -/
def UsageError.message : UsageError → String
  | missingConfigFile => "--config needs a file"
  | unknownOption arg => "unknown option '" ++ arg ++ "'"
  | unexpectedArgument arg => "unexpected argument '" ++ arg ++ "'"

/-- an argument other than `--config` -/
def Options.withArgument (o : Options) (arg : String) : Except UsageError Options :=
  match arg with
  | "--no-plugins" => .ok { o with noPlugins := true }
  | "--halt" => .ok { o with halt := true }
  | "--sample" => .ok { o with sample := true }
  | "--json" => .ok { o with json := true }
  | "--list-functions" => .ok { o with listFunctions := true }
  | "--plugins" => .ok { o with listPlugins := true }
  | "-h" => .ok { o with help := true }
  | "--help" => .ok { o with help := true }
  | "-V" => .ok { o with showVersion := true }
  | "--version" => .ok { o with showVersion := true }
  | _ =>
    if arg.startsWith "--" then .error (.unknownOption arg)
    else if o.input.isSome then .error (.unexpectedArgument arg)
    else .ok { o with input := some arg }

/-- the options after all arguments; the first one that cannot be taken decides -/
def Options.withArguments (o : Options) : List String → Except UsageError Options
  | [] => .ok o
  | ["--config"] => .error .missingConfigFile
  | "--config" :: file :: rest => Options.withArguments { o with config := some file } rest
  | arg :: rest =>
    match o.withArgument arg with
    | .error e => .error e
    | .ok o' => o'.withArguments rest

/-- the options that arguments ask for -/
def Options.parse (args : List String) : Except UsageError Options := Options.none.withArguments args

end CurveScript.CommandLine
