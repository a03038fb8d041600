/-
The engine: a registry, the plugins loaded into it, and the caches of the graphs in use.

The engine also holds the counter of identities, so that functions made in one run differ from those of any other.
Loading plugins starts from the base registry every time; functions that were handed out keep the registry that they
were defined with.
-/
import CurveScript.Config
import CurveScript.Event
import CurveScript.Plugin.Discovery

namespace CurveScript

/-! ## Plugins -/

/-- what a search of the roots finds: which roots there are, and the candidates with what opening them gives -/
structure Scan where
  roots : List (String × Bool)
  candidates : List (String × Plugin.Opening)

/-- where plugins come from -/
abbrev PluginSource := List String → Scan

/-- the plugins in a directory tree, opened by `openFile` -/
def PluginSource.ofTree {α : Type} (tree : Plugin.Node α) (openFile : String → α → Plugin.Opening)
    (current : List Path.Raw := []) : PluginSource :=
  fun roots => ⟨roots.map fun r => (r, (tree.entries? (Path.Raw.ofText r) current).isSome),
    (Plugin.discover tree current (roots.map Path.Raw.ofText)).map fun c =>
      (c.path.shown, openFile c.path.shown c.content)⟩

/-- the events of a search -/
def Scan.events (s : Scan) : List Event :=
  s.roots.map fun r => if r.2 then .rootScanned r.1 else .rootMissing r.1

/-- a pass of the loader, with its events -/
structure Load where
  trials : List Plugin.Trial
  stock : Plugin.Stock
  events : List Event

/-- loads all plugins that the source finds, if loading is enabled -/
def loadPlugins (enabled reportConflicts : Bool) (source : PluginSource) (roots : List String)
    (stock : Plugin.Stock) : Load :=
  if enabled then
    let scan := source roots
    let (trials, after) := Plugin.tryAll stock scan.candidates
    ⟨trials, after, scan.events ++ trials.flatMap (Plugin.Trial.events reportConflicts)⟩
  else ⟨[], stock, [.loadingDisabled]⟩

/-! ## The engine -/

/-- an engine with its settings and the directories that it searches -/
structure Engine where
  config : Config
  roots : List String
  /-- The registry without plugins. -/
  base : Registry
  registry : Registry
  trials : List Plugin.Trial
  caches : SampleCaches
  nextId : Nat

namespace Engine

/-- the report on the plugins -/
def report (e : Engine) : Plugin.Report := .ofTrials e.trials

/-- the plugins that are loaded -/
def plugins (e : Engine) : Plugin.Context := Plugin.contextOf e.trials

/-- loads the plugins again, and says what happened -/
def reload (e : Engine) (source : PluginSource) : Engine × List Event :=
  let load := loadPlugins e.config.plugins.enabled e.config.plugins.reportConflicts source e.roots ⟨e.base, e.nextId⟩
  let e' := { e with registry := load.stock.registry, trials := load.trials, nextId := load.stock.nextId }
  (e', load.events ++ [.registryReady e'.plugins.length e'.registry.size e'.report.conflicts.length])

/-- an engine over a base registry, with the plugins that its settings find -/
def ofRegistry (base : Registry) (nextId : Nat) (config : Config) (defaultRoots : List String)
    (source : PluginSource) : Engine × List Event :=
  reload ⟨config, config.plugins.roots defaultRoots, base, base, [], .empty, nextId⟩ source

/-- an engine over the standard registry, whose functions take the identities from `nextId` on -/
def standard (nextId : Nat) (config : Config) (defaultRoots : List String) (source : PluginSource) :
    Engine × List Event :=
  ofRegistry (.standard nextId) (nextId + Registry.standardIdentities) config defaultRoots source

/-! ## Scripts -/

/-- the execution of a source text by the engine's registry and policy, if it can be split into tokens -/
def evaluate (e : Engine) (source : String) (table : Bindings Value) : Except LexError Execution :=
  (Token.tokenize source).map fun tokens =>
    (Execution.start tokens table e.registry e.nextId).withPolicy e.config.errorPolicy

/-- the execution of a document by the engine's registry and policy -/
def evaluateDocument (e : Engine) (d : Document) (table : Bindings Value) : Except LexError Execution × Document :=
  let (execution, d') := d.run table e.registry e.nextId
  (execution.map fun ex => ex.withPolicy e.config.errorPolicy, d')

/-- the engine after a run -/
def after (e : Engine) (r : Run) : Engine := { e with nextId := r.nextId }

/-- What is pulled from an execution, the table after it, and the engine after it. Where there is none, `table` and the
engine stay as they are. -/
def collect (e : Engine) (limit : Option Nat) (table : Bindings Value) :
    Except LexError Execution → Except LexError (List Step × Run × Bool) × Bindings Value × Engine
  | .error err => (.error err, table, e)
  | .ok ex =>
    let pulled := ex.pull limit
    (.ok pulled, pulled.2.1.table, e.after pulled.2.1)

/-- all statements of a source text, the table after them, and the engine after them -/
def run (e : Engine) (source : String) (table : Bindings Value) :
    Except LexError (List Step × Bindings Value × Engine) :=
  match e.evaluate source table with
  | .error err => .error err
  | .ok ex =>
    let (steps, r, _) := ex.pull none
    .ok (steps, r.table, e.after r)

/-- the graphs among the results of statements -/
def graphs (steps : List Step) : List Graph :=
  steps.filterMap fun s =>
    match s.output with
    | .ok v => v.graph?
    | .error _ => none

/-! ## Graphs -/

section Caller

variable {σ : Type} (caller : Caller σ) (e : Engine)

/-- the curve of a graph over a range, or else over its own range or that of the settings, with a caller -/
def sampleBy (g : Graph) (range : Option SampleRange) (schedule : List Nat) (s : σ) : Curve × SampleCaches × σ :=
  e.caches.sample caller g (g.resolveRange range e.config.sampling.defaultRange) schedule s

/-- the curve of a graph over a viewport, if that is a range, with a caller -/
def sampleViewportBy (g : Graph) (start stop : Float) (schedule : List Nat) (s : σ) :
    Option Curve × SampleCaches × σ :=
  match e.config.sampling.viewport? start stop with
  | none => (none, e.caches, s)
  | some range =>
    let (curve, caches, s') := e.caches.sample caller g range schedule s
    (some curve, caches, s')

/-- the value of a graph at `x`, with a caller -/
def pointBy (g : Graph) (x : Float) (s : σ) : Except EvalError Value × SampleCaches × σ := e.caches.get caller g x s

end Caller

/-- an answer, and the engine with the caches and the counter of identities after it -/
def keeping {α : Type} (e : Engine) (answer : α × SampleCaches × Nat) : α × Engine :=
  (answer.1, { e with caches := answer.2.1, nextId := answer.2.2 })

/-- the curve of a graph over a range, or else over its own range or that of the settings -/
def sample (e : Engine) (g : Graph) (range : Option SampleRange) (schedule : List Nat) : Curve × Engine :=
  e.keeping (e.sampleBy .plain g range schedule e.nextId)

/-- the curve of a graph over a viewport, if that is a range -/
def sampleViewport (e : Engine) (g : Graph) (start stop : Float) (schedule : List Nat) : Option Curve × Engine :=
  e.keeping (e.sampleViewportBy .plain g start stop schedule e.nextId)

/-- the value of a graph at `x` -/
def point (e : Engine) (g : Graph) (x : Float) : Except EvalError Value × Engine :=
  e.keeping (e.pointBy .plain g x e.nextId)

/-- the cache of a graph's function, which is in use from now on -/
def cacheOf (e : Engine) (g : Graph) : SampleCache × Engine :=
  (e.caches.cacheFor g, { e with caches := e.caches.ensure g })

/-- forgets the values of a graph -/
def clearCache (e : Engine) (g : Graph) : Engine := { e with caches := e.caches.clear g }

/-- drops the caches of graphs that are no longer in use -/
def retain (e : Engine) (live : List Graph) : Engine := { e with caches := e.caches.retain live }

end Engine

end CurveScript
