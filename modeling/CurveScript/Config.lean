/-
Settings of an engine.

They are read from a JSON document, where everything has a default, and then overridden by variables of the
environment. Directories of the environment's plugin path are searched before those of the document.
-/
import CurveScript.Json.Decode
import CurveScript.Path
import CurveScript.Run
import CurveScript.Text.Blank

namespace CurveScript

/-- settings of the plugin loader -/
structure PluginConfig where
  enabled : Bool
  /-- Searched before the default directories. -/
  searchPaths : List String
  includeDefaultPaths : Bool
  /-- Whether functions that are dropped are written to the log. -/
  reportConflicts : Bool

/-- settings of sampling -/
structure SamplingConfig where
  start : Float
  stop : Float
  step : Float
  /-- The number of steps that a viewport is divided into. -/
  viewportSamples : Nat

/-- all settings of an engine -/
structure Config where
  plugins : PluginConfig
  errorPolicy : ErrorPolicy
  sampling : SamplingConfig

/-- why settings could not be read -/
inductive ConfigError where
  | unreadable (path reason : String)
  | malformed
  | invalidVariable (name value : String)
  deriving DecidableEq

/-- the message of a settings error; what is wrong with a document is not told -/
def ConfigError.message : ConfigError → String
  | unreadable path reason => "cannot read " ++ path ++ ": " ++ reason
  | malformed => "invalid configuration: "
  | invalidVariable name value => "invalid value '" ++ value ++ "' for " ++ name

/-! ## Directories of plugins -/

/-- the name of a directory of plugins -/
def pluginDirectory : String := "PlotPlugins"

/-- The directories searched by default: that of the executable, that of the user, and that of the machine. -/
def defaultSearchPaths (executableDirectory home : Option String) : List String :=
  executableDirectory.toList ++ (home.map fun h => Path.join h pluginDirectory).toList ++
    [Path.join "/usr/local/share" pluginDirectory]

/-- the directories to search, given the default ones -/
def PluginConfig.roots (c : PluginConfig) (defaults : List String) : List String :=
  c.searchPaths ++ if c.includeDefaultPaths then defaults else []

/-! ## Defaults -/

/-- the settings of the loader where nothing is said -/
def PluginConfig.standard : PluginConfig := ⟨true, [], true, true⟩

/-- the settings of sampling where nothing is said -/
def SamplingConfig.standard : SamplingConfig :=
  ⟨SampleRange.standard.start, SampleRange.standard.stop, SampleRange.standard.step, 500⟩

/-- the settings where nothing is said -/
def Config.standard : Config := ⟨.standard, .goOn, .standard⟩

/-- the range of graphs without one of their own; the standard one where the settings admit none -/
def SamplingConfig.defaultRange (c : SamplingConfig) : SampleRange :=
  (SampleRange.make? c.start c.stop c.step).getD .standard

/-- the range that covers a viewport -/
def SamplingConfig.viewport? (c : SamplingConfig) (start stop : Float) : Option SampleRange :=
  SampleRange.split? start stop c.viewportSamples

/-! ## Reading the document -/

/-- the policy that a word names -/
def ErrorPolicy.ofWord? (word : String) : Option ErrorPolicy :=
  if word = "continue" then some .goOn else if word = "halt" then some .halt else none

/-- the settings of the loader in a document -/
def PluginConfig.read? (d : JsonSyntax) : Option PluginConfig := do
  let fields ← d.record? ["enabled", "search_paths", "include_default_paths", "report_conflicts"]
  let default := standard
  return {
    enabled := ← JsonSyntax.field? fields 0 JsonSyntax.bool? default.enabled
    searchPaths := ← JsonSyntax.field? fields 1 JsonSyntax.texts? default.searchPaths
    includeDefaultPaths := ← JsonSyntax.field? fields 2 JsonSyntax.bool? default.includeDefaultPaths
    reportConflicts := ← JsonSyntax.field? fields 3 JsonSyntax.bool? default.reportConflicts }

/-- the settings of sampling in a document -/
def SamplingConfig.read? (d : JsonSyntax) : Option SamplingConfig := do
  let fields ← d.record? ["default_start", "default_end", "default_step", "viewport_samples"]
  let default := standard
  return {
    start := ← JsonSyntax.field? fields 0 JsonSyntax.double? default.start
    stop := ← JsonSyntax.field? fields 1 JsonSyntax.double? default.stop
    step := ← JsonSyntax.field? fields 2 JsonSyntax.double? default.step
    viewportSamples := ← JsonSyntax.field? fields 3 JsonSyntax.natural? default.viewportSamples }

/-- the settings in a document -/
def Config.read? (d : JsonSyntax) : Option Config := do
  let fields ← d.record? ["plugins", "error_policy", "sampling"]
  return {
    plugins := ← JsonSyntax.field? fields 0 PluginConfig.read? .standard
    errorPolicy := ← JsonSyntax.field? fields 1 (fun p => p.choice?.bind ErrorPolicy.ofWord?) .goOn
    sampling := ← JsonSyntax.field? fields 2 SamplingConfig.read? .standard }

/-- the settings that a JSON text writes -/
def Config.ofJson (source : String) : Except ConfigError Config :=
  match (JsonSyntax.read? source).bind Config.read? with
  | some c => .ok c
  | none => .error .malformed

/-! ## The environment -/

namespace Environment

def plugins : String := "PLOTSCRIPT_PLUGINS"
def pluginPath : String := "PLOTSCRIPT_PLUGIN_PATH"
def conflictLog : String := "PLOTSCRIPT_CONFLICT_LOG"
def errorPolicy : String := "PLOTSCRIPT_ERROR_POLICY"

end Environment

/-- the variables of an environment -/
abbrev Variables := String → Option String

/-- a switch as variables write it -/
def switch? (value : String) : Option Bool :=
  let word := Text.lowered value
  if word ∈ ["1", "true", "on", "yes"] then some true
  else if word ∈ ["0", "false", "off", "no"] then some false
  else none

/-- a variable without the blank at its ends, read as what it should be, or a default where it is not set -/
def readVariable {α : Type} (environment : Variables) (name : String) (read : String → Option α) (default : α) :
    Except ConfigError α :=
  match (environment name).map Text.trimmed with
  | none => .ok default
  | some value =>
    match read value with
    | some a => .ok a
    | none => .error (.invalidVariable name value)

/-- the directories of a path list, empty ones left out -/
def splitPathList (paths : String) : List String := (paths.splitOn ":").filter fun p => !p.isEmpty

/-- the settings with what the environment overrides -/
def Config.withVariables (c : Config) (environment : Variables) : Except ConfigError Config := do
  let enabled ← readVariable environment Environment.plugins switch? c.plugins.enabled
  let reportConflicts ← readVariable environment Environment.conflictLog switch? c.plugins.reportConflicts
  let errorPolicy ← readVariable environment Environment.errorPolicy
    (fun v => ErrorPolicy.ofWord? (Text.lowered v)) c.errorPolicy
  let added := match environment Environment.pluginPath with
    | some paths => splitPathList paths
    | none => []
  return { c with
    errorPolicy := errorPolicy
    plugins := { c.plugins with
      enabled := enabled, reportConflicts := reportConflicts, searchPaths := added ++ c.plugins.searchPaths } }

end CurveScript
