/-
Sampling graphs with a memory.

A cache belongs to one function and maps the bit pattern of an x-value to the value of the function there. Only
successes are kept. `SampleCache.sample` sweeps a range through the cache; each point of the range becomes a point of
the curve or a failure.

The points of a sweep are worked on side by side. The work on one point looks it up, calls the graph if there is no
entry, and keeps the value, and other points may come in between: two points with one bit pattern can both miss, and
then both call. A schedule is a list of positions, in the order in which the points make their steps; what it leaves
open is done in turn, so the empty schedule takes the points one after the other, and every order of steps is a schedule.

Graphs are called through a caller, which has the counter of identities as its state.
-/
import CurveScript.Evaluation
import Std.Data.HashMap

namespace CurveScript

/-- a way to call graphs, with a state -/
abbrev Caller (σ : Type) := Graph → Float → σ → Except EvalError Value × σ

/-- Calls a graph with the next identity. A call that fails leaves none behind. -/
def Caller.plain : Caller Nat := fun g x nextId =>
  match g.invoke x nextId with
  | .ok (v, nextId') => (.ok v, nextId')
  | .error e => (.error e, nextId)

/-! ## Curves -/

/-- a point without a value, and why -/
structure SampleFailure where
  x : Float
  message : String

/-- what a sweep found, in ascending order of x -/
structure Curve where
  range : SampleRange
  points : List (Float × Float)
  failures : List SampleFailure

/-- a curve with one more point or failure in front -/
def Curve.push (x : Float) (y : Except EvalError Float) (c : Curve) : Curve :=
  match y with
  | .ok y => { c with points := (x, y) :: c.points }
  | .error e => { c with failures := ⟨x, e.message⟩ :: c.failures }

/-- the y-value that a result gives -/
def Curve.ordinate (r : Except EvalError Value) : Except EvalError Float :=
  match r with
  | .error e => .error e
  | .ok v =>
    match v.number? with
    | some y => .ok y
    | none => .error (.invalidOperand "plot" v.kind)

/-- the curve of the results at the points of a range -/
def Curve.ofResults (range : SampleRange) (results : List (Float × Except EvalError Value)) : Curve :=
  results.foldr (fun r curve => curve.push r.1 (ordinate r.2)) ⟨range, [], []⟩

/-! ## One cache -/

/-- the known values of one graph -/
structure SampleCache where
  graph : Graph
  points : Std.HashMap UInt64 Value

/-- how far the work on a point has come -/
inductive Stage where
  | waiting
  /-- It was looked up, and there was no entry. -/
  | missed
  /-- The graph gave a value, which is not kept yet. -/
  | called (v : Value)
  | done (r : Except EvalError Value)

/-- a sweep in progress: the cache, the points with their stages, and the state of the caller -/
structure Sweep (σ : Type) where
  cache : SampleCache
  tasks : List (Float × Stage)
  state : σ

namespace SampleCache

/-- nothing known yet -/
def ofGraph (g : Graph) : SampleCache := ⟨g, ∅⟩

/-- the number of known values -/
def size (c : SampleCache) : Nat := c.points.size

/-- forgets all values -/
def clear (c : SampleCache) : SampleCache := { c with points := ∅ }

/-- the cache with the value at `x` -/
def keep (c : SampleCache) (x : Float) (v : Value) : SampleCache := { c with points := c.points.insert x.toBits v }

section Caller

variable {σ : Type} (caller : Caller σ)

/-- Calls the graph and keeps the value. A failure is not kept. -/
def compute (c : SampleCache) (x : Float) (s : σ) : Except EvalError Value × SampleCache × σ :=
  match caller c.graph x s with
  | (.ok v, s') => (.ok v, c.keep x v, s')
  | (.error e, s') => (.error e, c, s')

/-- the value at `x`, known or computed and then kept -/
def get (c : SampleCache) (x : Float) (s : σ) : Except EvalError Value × SampleCache × σ :=
  match c.points[x.toBits]? with
  | some v => (.ok v, c, s)
  | none => c.compute caller x s

/-- one step of `get` -/
def step (c : SampleCache) (x : Float) (s : σ) : Stage → Stage × SampleCache × σ
  | .waiting =>
    match c.points[x.toBits]? with
    | some v => (.done (.ok v), c, s)
    | none => (.missed, c, s)
  | .missed =>
    match caller c.graph x s with
    | (.ok v, s') => (.called v, c, s')
    | (.error e, s') => (.done (.error e), c, s')
  | .called v => (.done (.ok v), c.keep x v, s)
  | .done r => (.done r, c, s)

/-- what is left of `get` after some steps -/
def finish (c : SampleCache) (x : Float) (s : σ) : Stage → Except EvalError Value × SampleCache × σ
  | .waiting => c.get caller x s
  | .missed => c.compute caller x s
  | .called v => (.ok v, c.keep x v, s)
  | .done r => (r, c, s)

/-- what is left of the work on several points, one after the other -/
def finishAll (c : SampleCache) (s : σ) :
    List (Float × Stage) → List (Float × Except EvalError Value) × SampleCache × σ
  | [] => ([], c, s)
  | (x, stage) :: tasks =>
    let (r, c', s') := c.finish caller x s stage
    let (rs, last, s'') := finishAll c' s' tasks
    ((x, r) :: rs, last, s'')

end Caller

end SampleCache

/-- the sweep after one step at a position -/
def Sweep.advance {σ : Type} (caller : Caller σ) (w : Sweep σ) (k : Nat) : Sweep σ :=
  match w.tasks[k]? with
  | none => w
  | some (x, stage) =>
    let (stage', cache, s) := w.cache.step caller x w.state stage
    ⟨cache, w.tasks.set k (x, stage'), s⟩

/-- the sweep after the steps of a schedule -/
def Sweep.follow {σ : Type} (caller : Caller σ) (w : Sweep σ) (schedule : List Nat) : Sweep σ :=
  schedule.foldl (Sweep.advance caller) w

namespace SampleCache

/-- the sweep before its first step -/
def start {σ : Type} (c : SampleCache) (xs : List Float) (s : σ) : Sweep σ := ⟨c, xs.map fun x => (x, .waiting), s⟩

section Caller

variable {σ : Type} (caller : Caller σ)

/-- the results at the x-values, whose steps are in the order of the schedule -/
def sweep (c : SampleCache) (schedule : List Nat) (xs : List Float) (s : σ) :
    List (Float × Except EvalError Value) × SampleCache × σ :=
  let w := (c.start xs s).follow caller schedule
  w.cache.finishAll caller w.state w.tasks

/-- the curve over a range -/
def sample (c : SampleCache) (range : SampleRange) (schedule : List Nat) (s : σ) : Curve × SampleCache × σ :=
  let (results, c', s') := c.sweep caller schedule range.points s
  (.ofResults range results, c', s')

/-- the curve over a range, or else over the graph's own range -/
def sampleGraph (c : SampleCache) (range : Option SampleRange) (schedule : List Nat) (s : σ) :
    Curve × SampleCache × σ :=
  c.sample caller (c.graph.resolveRange range .standard) schedule s

end Caller

end SampleCache

/-! ## All caches -/

/-- the caches of all graphs in use, by the identity of their function -/
structure SampleCaches where
  caches : List (Nat × SampleCache)

namespace SampleCaches

/-- no cache -/
def empty : SampleCaches := ⟨[]⟩

/-- the number of caches -/
def size (s : SampleCaches) : Nat := s.caches.length

/-- puts a cache in the place of the one of its identity, or behind all others -/
def put (id : Nat) (c : SampleCache) : List (Nat × SampleCache) → List (Nat × SampleCache)
  | [] => [(id, c)]
  | (n, d) :: rest => if n = id then (id, c) :: rest else (n, d) :: put id c rest

/-- keeps a cache under an identity -/
def set (s : SampleCaches) (id : Nat) (c : SampleCache) : SampleCaches := ⟨put id c s.caches⟩

/-- the cache of a graph's function: the one in use, or a new one -/
def cacheFor (s : SampleCaches) (g : Graph) : SampleCache := (s.caches.lookup g.id).getD (.ofGraph g)

/-- the caches with one for the graph's function among them -/
def ensure (s : SampleCaches) (g : Graph) : SampleCaches := s.set g.id (s.cacheFor g)

section Caller

variable {σ : Type} (caller : Caller σ)

/-- the value of a graph at `x` -/
def get (s : SampleCaches) (g : Graph) (x : Float) (st : σ) : Except EvalError Value × SampleCaches × σ :=
  let (r, c, st') := (s.cacheFor g).get caller x st
  (r, s.set g.id c, st')

/-- the curve of a graph over a range -/
def sample (s : SampleCaches) (g : Graph) (range : SampleRange) (schedule : List Nat) (st : σ) :
    Curve × SampleCaches × σ :=
  let (curve, c, st') := (s.cacheFor g).sample caller range schedule st
  (curve, s.set g.id c, st')

end Caller

/-- forgets the values of a graph's function but keeps its cache -/
def clear (s : SampleCaches) (g : Graph) : SampleCaches :=
  match s.caches.lookup g.id with
  | some c => s.set g.id c.clear
  | none => s

/-- drops the caches of functions that none of the graphs plots -/
def retain (s : SampleCaches) (live : List Graph) : SampleCaches :=
  ⟨s.caches.filter fun e => live.any fun g => g.id == e.1⟩

end SampleCaches

end CurveScript
