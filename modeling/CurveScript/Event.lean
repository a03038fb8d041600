/-
The log.

What happens in a run, in the loader or in a cache is told by events. The events of an operation are a function of what
the operation returns, so operations themselves know nothing of the log.
-/
import CurveScript.Document
import CurveScript.Plugin.Loader
import CurveScript.Run
import CurveScript.SampleCache

namespace CurveScript

/-- how much an event matters, the most severe first -/
inductive Level where
  | error
  | warn
  | info
  | debug
  | trace
  deriving DecidableEq

namespace Level

/-- the level as the log shows it -/
def text : Level → String
  | error => "ERROR"
  | warn => "WARN"
  | info => "INFO"
  | debug => "DEBUG"
  | trace => "TRACE"

/-- the place of the level, counted from the most severe -/
def rank : Level → Nat
  | error => 0
  | warn => 1
  | info => 2
  | debug => 3
  | trace => 4

end Level

/-- events of the log -/
inductive Event where
  | unreadableStatement (statement : Nat) (error : ParseError)
  | evaluating (statement : Nat) (span : Span)
  | failedStatement (statement : Nat) (error : EvalError)
  | callsExceeded (limit : Nat)
  | documentChanged (bytes : Nat)
  | cacheCleared (function : String) (points : Nat)
  | registryReady (plugins functions conflicts : Nat)
  | duplicateBuiltin (error : RegistryError)
  | rootMissing (root : String)
  | rootScanned (root : String)
  | loadingDisabled
  | functionDropped (conflict : Plugin.Conflict)
  | pluginLoaded (plugin : Plugin.Loaded)
  | pluginSkipped (candidate : Plugin.Skipped)

namespace Event

/-- how much the event matters -/
def level : Event → Level
  | unreadableStatement _ _ | failedStatement _ _ | rootMissing _ | rootScanned _ | loadingDisabled => .debug
  | evaluating _ _ | callsExceeded _ | documentChanged _ | cacheCleared _ _ => .trace
  | registryReady _ _ _ | pluginLoaded _ => .info
  | duplicateBuiltin _ | functionDropped _ | pluginSkipped _ => .warn

/-- what the event says -/
def message : Event → String
  | unreadableStatement _ _ => "parse error, run ends"
  | evaluating _ _ => "evaluating"
  | failedStatement _ _ => "evaluation error"
  | callsExceeded _ => "call depth exceeded"
  | documentChanged _ => "document changed, tokens invalidated"
  | cacheCleared _ _ => "sample cache cleared"
  | registryReady _ _ _ => "registry ready"
  | duplicateBuiltin _ => "duplicate built-in ignored"
  | rootMissing _ => "plugin root missing, skipped"
  | rootScanned _ => "scanning for plugins"
  | loadingDisabled => "plugin loading disabled"
  | functionDropped _ => "plugin function dropped, name already registered"
  | pluginLoaded _ => "plugin loaded"
  | pluginSkipped _ => "plugin skipped"

/-- the particulars of the event -/
def fields : Event → List (String × String)
  | unreadableStatement n e => [("statement", toString n), ("error", e.message)]
  | evaluating n s => [("statement", toString n), ("span", s.text)]
  | failedStatement n e => [("statement", toString n), ("error", e.message)]
  | callsExceeded limit => [("limit", toString limit)]
  | documentChanged bytes => [("bytes", toString bytes)]
  | cacheCleared f points => [("function", f), ("points", toString points)]
  | registryReady plugins functions conflicts =>
    [("plugins", toString plugins), ("functions", toString functions), ("conflicts", toString conflicts)]
  | duplicateBuiltin e => [("err", e.message)]
  | rootMissing root | rootScanned root => [("root", root)]
  | loadingDisabled => []
  | functionDropped c =>
    [("function", c.function), ("plugin", c.plugin), ("existing", c.existing.text)]
  | pluginLoaded p => [("plugin", p.name), ("path", p.path), ("functions", toString p.functions.length)]
  | pluginSkipped c => [("path", c.path), ("err", c.reason)]

/-- whether a log of the given level holds the event -/
def shownAt (e : Event) (l : Level) : Bool := e.level.rank ≤ l.rank

end Event

/-! ## Events of operations -/

/-- An evaluation passes a limit that was met on to its result, which so tells that it was. -/
def EvalError.events : EvalError → List Event
  | recursionLimit limit => [.callsExceeded limit]
  | _ => []

/-- the events of a call -/
def callEvents (r : Except EvalError Value) : List Event :=
  match r with
  | .ok _ => []
  | .error e => e.events

/-- the events of one statement of a run -/
def Step.events (s : Step) : List Event :=
  match s.verdict with
  | .unreadable e => [.unreadableStatement s.number e]
  | .evaluated span (.ok _) => [.evaluating s.number span]
  | .evaluated span (.error f) =>
    .evaluating s.number span :: (f.error.events ++ [.failedStatement s.number f.error])

/-- the events of setting a document's text -/
def Document.events (changed : Bool) (source : String) : List Event :=
  if changed then [.documentChanged source.utf8ByteSize] else []

/-- the events of clearing the cache of a graph -/
def SampleCaches.clearEvents (s : SampleCaches) (g : Graph) : List Event :=
  match s.caches.lookup g.id with
  | some c => [.cacheCleared c.graph.label c.size]
  | none => []

/-- the events of registering a built-in -/
def Registry.registerEvents (r : Registry) (name : String) : List Event :=
  match r.source? name with
  | some existing => [.duplicateBuiltin (.conflict name existing)]
  | none => []

/-- the events of a trial; dropped functions are told of if the settings ask for it -/
def Plugin.Trial.events (reportConflicts : Bool) (t : Plugin.Trial) : List Event :=
  (if reportConflicts then t.noticed.map .functionDropped else []) ++
    match t.verdict with
    | .loaded name functions => [.pluginLoaded ⟨name, t.path, functions⟩]
    | .skipped reason => [.pluginSkipped ⟨t.path, reason.message⟩]

end CurveScript
