/-
Loading plugins into a registry.

Every candidate is opened and registered on its own. Its functions are staged on a copy of the registry, which replaces
the registry only when all of them are through, so that a candidate that fails or crashes on the way adds nothing. A
function whose name is taken is dropped and recorded as a conflict; the earlier one stays. What happened to each
candidate is a `Trial`; the report, the context and the log are views of the list of trials.
-/
import CurveScript.Plugin.Declaration
import CurveScript.Registry

namespace CurveScript.Plugin

/-- the text of a crash, if it has one -/
abbrev Crash := Option String

/-- code of a plugin that may crash -/
abbrev Attempt (α : Type) := Except Crash α

/-- the text under which a crash is reported -/
def Crash.text (p : Crash) : String := p.getD "unknown panic"

/-- A function that a module lists. Its description is asked for when its turn comes, for its name and then for its arity,
and is the same both times. -/
structure ModuleFunction where
  info : Attempt FunctionInfo
  call : NativeCall

/-- an opened plugin -/
structure Module where
  name : Attempt String
  functions : Attempt (List ModuleFunction)

/-- what opening a candidate gives -/
abbrev Opening := Attempt (Except PluginError Module)

/-- the module of a declaration that was read -/
def Module.ofExports (name : String) (functions : List ExportedFunction) : Module where
  name := .ok name
  functions := .ok (functions.map fun f => ⟨.ok f.info, .plugin f⟩)

/-- a file as the system's loader sees it -/
inductive Binary where
  /-- No library, for a reason that the system gives. -/
  | unusable (reason : String)
  /-- A library, with what its entry point gives if it has one. -/
  | library (entryPoint : Option (Option Declaration))

/-- opens a file as a plugin library -/
def Binary.openPlugin (path : String) : Binary → Except PluginError Module
  | unusable reason => .error (.cannotOpen path reason)
  | library none => .error (.missingEntryPoint path)
  | library (some declaration) =>
    match Declaration.read declaration with
    | .error e => .error e
    | .ok (name, functions) => .ok (.ofExports name functions)

/-- a function that was dropped, and who holds its name -/
structure Conflict where
  function : String
  plugin : String
  path : String
  existing : Source
  deriving DecidableEq

/-! ## Staging -/

/-- a registry in the making, with what was registered and what was dropped so far -/
structure Staged where
  registry : Registry
  nextId : Nat
  registered : List String
  dropped : List Conflict

/-- one more function of a plugin -/
def Staged.add (s : Staged) (plugin path : String) (info : FunctionInfo) (call : NativeCall) : Staged :=
  match s.registry.register info.name info call (.plugin plugin) s.nextId with
  | .ok registry =>
    { s with registry := registry, nextId := s.nextId + 1, registered := s.registered ++ [info.name] }
  | .error (.conflict _ existing) => { s with dropped := s.dropped ++ [⟨info.name, plugin, path, existing⟩] }
  | .error (.notFound _) => s

/-- the functions of a plugin in turn, up to one that crashes -/
def Staged.addAll (plugin path : String) (s : Staged) : List ModuleFunction → Staged × Option Crash
  | [] => (s, none)
  | f :: fs =>
    match f.info with
    | .error p => (s, some p)
    | .ok info => (s.add plugin path info f.call).addAll plugin path fs

/-! ## Trials -/

/-- what became of a candidate -/
inductive Verdict where
  | loaded (name : String) (functions : List String)
  | skipped (reason : PluginError)
  deriving DecidableEq

/-- A candidate that was tried. The conflicts that were noticed count only if it was loaded. -/
structure Trial where
  path : String
  noticed : List Conflict
  verdict : Verdict
  deriving DecidableEq

/-- the registry and the next identity before or after a trial -/
structure Stock where
  registry : Registry
  nextId : Nat

/-- tries an opened module -/
def tryModule (stock : Stock) (path : String) (m : Module) : Trial × Stock :=
  match m.name, m.functions with
  | .error p, _ => (⟨path, [], .skipped (.crashed p.text)⟩, stock)
  | _, .error p => (⟨path, [], .skipped (.crashed p.text)⟩, stock)
  | .ok name, .ok functions =>
    match Staged.addAll name path ⟨stock.registry, stock.nextId, [], []⟩ functions with
    | (staged, none) =>
      (⟨path, staged.dropped, .loaded name staged.registered⟩, ⟨staged.registry, staged.nextId⟩)
    | (staged, some p) => (⟨path, staged.dropped, .skipped (.crashed p.text)⟩, stock)

/-- tries a candidate -/
def tryCandidate (stock : Stock) (path : String) (opening : Opening) : Trial × Stock :=
  match opening with
  | .error p => (⟨path, [], .skipped (.crashed p.text)⟩, stock)
  | .ok (.error e) => (⟨path, [], .skipped e⟩, stock)
  | .ok (.ok m) => tryModule stock path m

/-- tries all candidates in turn -/
def tryAll (stock : Stock) : List (String × Opening) → List Trial × Stock
  | [] => ([], stock)
  | (path, opening) :: rest =>
    let (trial, after) := tryCandidate stock path opening
    let (trials, last) := tryAll after rest
    (trial :: trials, last)

/-! ## Views -/

/-- a plugin that was loaded, with the functions that it added -/
structure Loaded where
  name : String
  path : String
  functions : List String
  deriving DecidableEq

/-- a candidate that was skipped, and why -/
structure Skipped where
  path : String
  reason : String
  deriving DecidableEq

/-- what a pass of the loader found -/
structure Report where
  loaded : List Loaded
  skipped : List Skipped
  conflicts : List Conflict
  deriving DecidableEq

/-- whether there is nothing to report -/
def Report.isEmpty (r : Report) : Bool := r.loaded.isEmpty && r.skipped.isEmpty && r.conflicts.isEmpty

/-- the plugin of a trial, if it was loaded -/
def Trial.loaded? (t : Trial) : Option Loaded :=
  match t.verdict with
  | .loaded name functions => some ⟨name, t.path, functions⟩
  | .skipped _ => none

/-- the candidate of a trial, if it was skipped -/
def Trial.skipped? (t : Trial) : Option Skipped :=
  match t.verdict with
  | .loaded _ _ => none
  | .skipped reason => some ⟨t.path, reason.message⟩

/-- the conflicts of a trial -/
def Trial.conflicts (t : Trial) : List Conflict :=
  match t.verdict with
  | .loaded _ _ => t.noticed
  | .skipped _ => []

/-- the report on trials -/
def Report.ofTrials (trials : List Trial) : Report :=
  ⟨trials.filterMap Trial.loaded?, trials.filterMap Trial.skipped?, trials.flatMap Trial.conflicts⟩

/-- the name and the path of every plugin that is loaded, in order -/
abbrev Context := List (String × String)

/-- the plugins that trials loaded -/
def contextOf (trials : List Trial) : Context :=
  (trials.filterMap Trial.loaded?).map fun l => (l.name, l.path)

/-- the context as a diagnostic shows it -/
def inspectContext (c : Context) : String :=
  Text.bracketed (c.map fun p => "(" ++ Text.quoted p.1 ++ ", " ++ Text.quoted p.2 ++ ")")

end CurveScript.Plugin
