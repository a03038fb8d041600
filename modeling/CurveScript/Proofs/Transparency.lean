/-
The sample caches cannot be noticed.

A host asks an engine for points and curves of graphs, clears caches and drops them, in any order, and the points of each
sweep make their steps in any order. The answers are those of calling the graphs each time. What is assumed of the graphs
in use is that each gives one result for each number, and that two graphs of one identity plot one callable; they may
differ in their ranges.

The calls are those that the engine's own functions make with a caller that notes them, and this caller changes nothing
else (`serveBy_logOf`). A callable is called with a number by the first request that asks for it, and by no later one
until the cache is emptied or dropped. That request may call it as often as it asks for it: the points of a sweep are
worked on side by side, so two points of one number may both miss.

Results:
- `get_direct`, `sweep_direct`: a cache whose entries are results gives results, and its entries stay results.
- `serve_direct`, `serveAll_direct`: requests.
- `serve_cases`: a request that calls a graph is a sweep. `logOf_subperm`, `logOf_stored`, `stored_asked` and
  `stored_serve` from it, then `logged_stored` and `logged_le`: the calls of any number of requests.
- `pure_of_numbers`: a graph that gives numbers gives one result for each number.
- `caches_transparent`: the answers, the invariant, the calls, and what clearing and dropping leave.
Witnesses: `squares_transparent`, two graphs of one function with different ranges, and `squares_race`, where one number
is called three times by one request.
-/
import Mathlib
import CurveScript.Engine
import CurveScript.Proofs.FreeNames
import CurveScript.Proofs.Schedules

namespace CurveScript.Transparency

open CurveScript.Likeness CurveScript.Schedules Std

/-! ## Requests -/

/-- what a host asks of an engine -/
inductive Request where
  | point (g : Graph) (x : Float)
  | sample (g : Graph) (range : Option SampleRange) (schedule : List Nat)
  | viewport (g : Graph) (start stop : Float) (schedule : List Nat)
  | clear (g : Graph)
  | retain (live : List Graph)

/-- what the engine answers -/
inductive Answer where
  | value (r : Except EvalError Value)
  | curve (c : Option Curve)
  | done

/-- one request -/
def serve (e : Engine) : Request → Answer × Engine
  | .point g x => (.value (e.point g x).1, (e.point g x).2)
  | .sample g range schedule => (.curve (some (e.sample g range schedule).1), (e.sample g range schedule).2)
  | .viewport g start stop schedule =>
    (.curve (e.sampleViewport g start stop schedule).1, (e.sampleViewport g start stop schedule).2)
  | .clear g => (.done, e.clearCache g)
  | .retain live => (.done, e.retain live)

/-- requests in turn -/
def serveAll (e : Engine) : List Request → List Answer × Engine
  | [] => ([], e)
  | r :: rs => ((serve e r).1 :: (serveAll (serve e r).2 rs).1, (serveAll (serve e r).2 rs).2)

/-- the graphs that a request may call -/
def Request.graphs : Request → List Graph
  | .point g _ | .sample g _ _ | .viewport g _ _ _ => [g]
  | .clear _ | .retain _ => []

/-! ## Answers without caches -/

/-- what calling the graph with a number gives -/
def result (g : Graph) (x : Float) : Except EvalError Value := (g.invoke x 0).map Prod.fst

/-- the curve of calling the graph with every point of the range -/
def sweepDirect (g : Graph) (range : SampleRange) : Curve :=
  .ofResults range (range.points.map fun x => (x, result g x))

/-- the answer to a request that uses no cache -/
def direct (config : Config) : Request → Answer
  | .point g x => .value (result g x)
  | .sample g range _ => .curve (some (sweepDirect g (g.resolveRange range config.sampling.defaultRange)))
  | .viewport g start stop _ => .curve ((config.sampling.viewport? start stop).map (sweepDirect g))
  | .clear _ | .retain _ => .done

/-! ## What is assumed of graphs -/

/-- the graph gives one result for each number, whatever the next identity is -/
def Pure (g : Graph) : Prop := ∀ x id, (g.invoke x id).map Prod.fst = result g x

/-- The graphs in use are pure, and two of one identity plot one callable under one name. -/
structure InUse (G : Graph → Prop) : Prop where
  pure : ∀ g, G g → Pure g
  callable : ∀ g h, G g → G h → g.id = h.id → g.function.name = h.function.name ∧ g.function.body = h.function.body

/-- A call looks at the name and the body of a function only. -/
theorem callWith_congr {f h : FunctionValue} (hname : f.name = h.name) (hbody : f.body = h.body) (invoke : Invoke)
    (args : List Value) : f.callWith invoke args = h.callWith invoke args := by
  obtain ⟨name, id, body, range⟩ := f
  obtain ⟨name', id', body', range'⟩ := h
  cases hname
  cases hbody
  rfl

/-- Two graphs of one callable have the same results. -/
theorem result_congr {G : Graph → Prop} (hG : InUse G) {g h : Graph} (hg : G g) (hh : G h) (hid : g.id = h.id)
    (x : Float) : result g x = result h x := by
  obtain ⟨hname, hbody⟩ := hG.callable g h hg hh hid
  have hcall : g.invoke x = h.invoke x := callWith_congr hname hbody _ _
  rw [result, result, hcall]

/-- Calls of a pure graph answer with its results. -/
theorem Pure.plain {g : Graph} (hg : Pure g) (x : Float) (id : Nat) : (Caller.plain g x id).1 = result g x := by
  rw [← hg x id]
  unfold Caller.plain
  cases g.invoke x id <;> rfl

/-! ## One cache -/

/-- Each entry is the result of calling the graph with the number of that bit pattern. -/
def Holds (c : SampleCache) : Prop :=
  ∀ bits v, c.points[bits]? = some v → ∃ x : Float, x.toBits = bits ∧ result c.graph x = .ok v

theorem holds_ofGraph (g : Graph) : Holds (.ofGraph g) := by
  intro bits v hv
  have hnone : (SampleCache.ofGraph g).points[bits]? = none := HashMap.getElem?_empty
  rw [hnone] at hv
  cases hv

theorem Holds.entries {c : SampleCache} (h : Holds c) : Entries (fun x r => r = result c.graph x) c := by
  intro x v hv
  obtain ⟨y, hy, hresult⟩ := h _ v hv
  rw [← Float.toBits_inj.1 hy, hresult]

/-- A failure is not kept. -/
theorem Holds.none_of_error {c : SampleCache} (h : Holds c) {x : Float} {e : EvalError}
    (he : result c.graph x = .error e) : c.points[x.toBits]? = none := by
  cases hentry : c.points[x.toBits]? with
  | none => rfl
  | some v =>
    have hresult : .ok v = result c.graph x := h.entries x v hentry
    rw [he] at hresult
    cases hresult

/-- **A sweep gives the results at all of its points**, whatever the schedule. What it keeps are results, its cache stays
the one of its graph, and it has an entry for each point that succeeds. -/
theorem sweep_direct {c : SampleCache} (hpure : Pure c.graph) (h : Holds c) (schedule : List Nat) (xs : List Float)
    (id : Nat) :
    (c.sweep .plain schedule xs id).1 = xs.map (fun x => (x, result c.graph x)) ∧
      (c.sweep .plain schedule xs id).2.1.graph = c.graph ∧ Holds (c.sweep .plain schedule xs id).2.1 ∧
      ∀ bits, bits ∈ (c.sweep .plain schedule xs id).2.1.points ↔
        bits ∈ c.points ∨ ∃ x ∈ xs, x.toBits = bits ∧ ∃ v, result c.graph x = .ok v := by
  obtain ⟨hpoints, hresults, hgraph, hentries, hkeys⟩ := sweep_law hpure.plain h.entries schedule xs id
  have hall : (c.sweep .plain schedule xs id).1 = xs.map (fun x => (x, result c.graph x)) := by
    calc (c.sweep .plain schedule xs id).1
        = (c.sweep .plain schedule xs id).1.map fun p => (p.1, result c.graph p.1) :=
          (List.map_id _).symm.trans (List.map_congr_left fun p hp => Prod.ext rfl (hresults p hp))
      _ = ((c.sweep .plain schedule xs id).1.map Prod.fst).map fun x => (x, result c.graph x) := by
          rw [List.map_map]
          rfl
      _ = xs.map fun x => (x, result c.graph x) := by rw [hpoints]
  have hkeys' : ∀ bits, bits ∈ (c.sweep .plain schedule xs id).2.1.points ↔
      bits ∈ c.points ∨ ∃ x ∈ xs, x.toBits = bits ∧ ∃ v, result c.graph x = .ok v := by
    intro bits
    simp only [hkeys bits, hall, List.mem_map, Prod.mk.injEq]
    refine or_congr_right ⟨?_, ?_⟩
    · rintro ⟨_, v, ⟨x, hx, rfl, hv⟩, hbits⟩
      exact ⟨x, hx, hbits, v, hv⟩
    · rintro ⟨x, hx, hbits, v, hv⟩
      exact ⟨x, v, ⟨x, hx, rfl, hv⟩, hbits⟩
  refine ⟨hall, hgraph, fun bits v hv => ?_, hkeys'⟩
  have hmem := HashMap.mem_iff_isSome_getElem?.2 (Option.isSome_iff_exists.2 ⟨v, hv⟩)
  obtain ⟨x, rfl⟩ : ∃ x : Float, x.toBits = bits := by
    rcases (hkeys' bits).1 hmem with hbefore | ⟨x, -, hx, -⟩
    · obtain ⟨w, hw⟩ := Option.isSome_iff_exists.1 (HashMap.mem_iff_isSome_getElem?.1 hbefore)
      obtain ⟨x, hx, -⟩ := h bits w hw
      exact ⟨x, hx⟩
    · exact ⟨x, hx⟩
  exact ⟨x, rfl, by rw [hgraph, ← hentries x v hv]⟩

/-- **A cache gives results.** What it keeps are results, and it stays the cache of its graph. -/
theorem get_direct {c : SampleCache} (hpure : Pure c.graph) (h : Holds c) (x : Float) (id : Nat) :
    (c.get .plain x id).1 = result c.graph x ∧ (c.get .plain x id).2.1.graph = c.graph ∧
      Holds (c.get .plain x id).2.1 := by
  obtain ⟨hresult, hgraph, hholds, -⟩ := sweep_direct hpure h [] [x] id
  rw [sweep_single] at hresult hgraph hholds
  exact ⟨congrArg Prod.snd (List.head_eq_of_cons_eq hresult), hgraph, hholds⟩

/-! ## All caches -/

theorem lookup_put (id other : Nat) (c : SampleCache) (l : List (Nat × SampleCache)) :
    (SampleCaches.put id c l).lookup other = if other = id then some c else l.lookup other := by
  induction l with
  | nil => grind [SampleCaches.put]
  | cons p l ih => grind [SampleCaches.put]

/-- The cache under an identity is that of a graph in use with this identity, and its entries are results. -/
def Sound (G : Graph → Prop) (s : SampleCaches) : Prop :=
  ∀ id c, s.caches.lookup id = some c → G c.graph ∧ c.graph.id = id ∧ Holds c

theorem sound_empty (G : Graph → Prop) : Sound G .empty := nofun

theorem sound_set {G : Graph → Prop} {s : SampleCaches} (h : Sound G s) {c : SampleCache} (hc : G c.graph) {id : Nat}
    (hid : c.graph.id = id) (hholds : Holds c) : Sound G (s.set id c) := by
  intro other d hd
  rw [SampleCaches.set, lookup_put] at hd
  split at hd
  · next heq => cases hd; exact ⟨hc, hid.trans heq.symm, hholds⟩
  · exact h other d hd

/-- The cache that a graph is served from, which may have been made for another graph of its callable. -/
theorem cacheFor_sound {G : Graph → Prop} {s : SampleCaches} (h : Sound G s) {g : Graph} (hg : G g) :
    G (s.cacheFor g).graph ∧ (s.cacheFor g).graph.id = g.id ∧ Holds (s.cacheFor g) := by
  unfold SampleCaches.cacheFor
  cases hlookup : s.caches.lookup g.id with
  | some c => exact h g.id c hlookup
  | none => exact ⟨hg, rfl, holds_ofGraph g⟩

/-- A cache that is put in the place of the one that a graph is served from. -/
theorem sound_served {G : Graph → Prop} {s : SampleCaches} (h : Sound G s) {g : Graph} (hg : G g) {c : SampleCache}
    (hgraph : c.graph = (s.cacheFor g).graph) (hholds : Holds c) : Sound G (s.set g.id c) := by
  obtain ⟨hc, hid, -⟩ := cacheFor_sound h hg
  exact sound_set h (hgraph ▸ hc) (hgraph ▸ hid) hholds

theorem cachesGet_direct {G : Graph → Prop} (hG : InUse G) {s : SampleCaches} (h : Sound G s) {g : Graph} (hg : G g)
    (x : Float) (id : Nat) : (s.get .plain g x id).1 = result g x ∧ Sound G (s.get .plain g x id).2.1 := by
  obtain ⟨hc, hid, hholds⟩ := cacheFor_sound h hg
  obtain ⟨hresult, hgraph, hholds'⟩ := get_direct (hG.pure _ hc) hholds x id
  exact ⟨hresult.trans (result_congr hG hc hg hid x), sound_served h hg hgraph hholds'⟩

theorem cachesSample_direct {G : Graph → Prop} (hG : InUse G) {s : SampleCaches} (h : Sound G s) {g : Graph} (hg : G g)
    (range : SampleRange) (schedule : List Nat) (id : Nat) :
    (s.sample .plain g range schedule id).1 = sweepDirect g range ∧
      Sound G (s.sample .plain g range schedule id).2.1 := by
  obtain ⟨hc, hid, hholds⟩ := cacheFor_sound h hg
  obtain ⟨hresults, hgraph, hholds', -⟩ := sweep_direct (hG.pure _ hc) hholds schedule range.points id
  have hcongr : ∀ x, result (s.cacheFor g).graph x = result g x := result_congr hG hc hg hid
  simp only [hcongr] at hresults
  refine ⟨?_, sound_served h hg hgraph hholds'⟩
  rw [sweepDirect, ← hresults]
  rfl

theorem lookup_clear (s : SampleCaches) (g : Graph) (id : Nat) :
    (s.clear g).caches.lookup id =
      if id = g.id then (s.caches.lookup id).map fun c => ⟨c.graph, ∅⟩ else s.caches.lookup id := by
  unfold SampleCaches.clear
  cases hlookup : s.caches.lookup g.id with
  | some c =>
    simp only
    rw [SampleCaches.set, lookup_put]
    split
    · next heq => rw [heq, hlookup]; rfl
    · rfl
  | none =>
    simp only
    split
    · next heq => rw [heq, hlookup]; rfl
    · rfl

theorem lookup_retain (s : SampleCaches) (live : List Graph) (id : Nat) :
    (s.retain live).caches.lookup id = if id ∈ live.map Graph.id then s.caches.lookup id else none := by
  have hmem : (live.any fun g => g.id == id) = true ↔ id ∈ live.map Graph.id := by simp
  unfold SampleCaches.retain
  induction s.caches with
  | nil => simp
  | cons p l ih =>
    obtain ⟨n, c⟩ := p
    grind

theorem sound_clear {G : Graph → Prop} {s : SampleCaches} (h : Sound G s) (g : Graph) : Sound G (s.clear g) := by
  intro id c hc
  rw [lookup_clear] at hc
  split at hc
  · obtain ⟨d, hd, rfl⟩ := Option.map_eq_some_iff.1 hc
    obtain ⟨hin, hid, -⟩ := h id d hd
    exact ⟨hin, hid, holds_ofGraph d.graph⟩
  · exact h id c hc

theorem sound_retain {G : Graph → Prop} {s : SampleCaches} (h : Sound G s) (live : List Graph) :
    Sound G (s.retain live) := by
  intro id c hc
  rw [lookup_retain] at hc
  split at hc
  · exact h id c hc
  · cases hc

/-! ## All requests -/

theorem serve_config (e : Engine) (r : Request) : (serve e r).2.config = e.config := by
  cases r <;> rfl

theorem serveAll_config (e : Engine) (rs : List Request) : (serveAll e rs).2.config = e.config := by
  induction rs generalizing e with
  | nil => rfl
  | cons r rs ih => exact (ih _).trans (serve_config e r)

/-- **One request** is answered as if there were no caches. -/
theorem serve_direct {G : Graph → Prop} (hG : InUse G) {e : Engine} (h : Sound G e.caches) {r : Request}
    (hr : ∀ g ∈ r.graphs, G g) :
    (serve e r).1 = direct e.config r ∧ Sound G (serve e r).2.caches := by
  cases r with
  | point g x =>
    obtain ⟨hvalue, hsound⟩ := cachesGet_direct hG h (hr g List.mem_cons_self) x e.nextId
    exact ⟨congrArg Answer.value hvalue, hsound⟩
  | sample g range schedule =>
    obtain ⟨hcurve, hsound⟩ := cachesSample_direct hG h (hr g List.mem_cons_self)
      (g.resolveRange range e.config.sampling.defaultRange) schedule e.nextId
    exact ⟨congrArg (fun c => Answer.curve (some c)) hcurve, hsound⟩
  | viewport g start stop schedule =>
    simp only [serve, direct, Engine.sampleViewport, Engine.sampleViewportBy, Engine.keeping]
    cases hrange : e.config.sampling.viewport? start stop with
    | none => exact ⟨rfl, h⟩
    | some range =>
      obtain ⟨hcurve, hsound⟩ := cachesSample_direct hG h (hr g List.mem_cons_self) range schedule e.nextId
      exact ⟨congrArg (fun c => Answer.curve (some c)) hcurve, hsound⟩
  | clear g => exact ⟨rfl, sound_clear h g⟩
  | retain live => exact ⟨rfl, sound_retain h live⟩

/-- **Any number of requests.** -/
theorem serveAll_direct {G : Graph → Prop} (hG : InUse G) {e : Engine} (h : Sound G e.caches) {rs : List Request}
    (hrs : ∀ r ∈ rs, ∀ g ∈ r.graphs, G g) :
    (serveAll e rs).1 = rs.map (direct e.config) ∧ Sound G (serveAll e rs).2.caches := by
  induction rs generalizing e with
  | nil => exact ⟨rfl, h⟩
  | cons r rs ih =>
    obtain ⟨hr, hrest⟩ := List.forall_mem_cons.1 hrs
    obtain ⟨hanswer, hsound⟩ := serve_direct hG h hr
    obtain ⟨hanswers, hsound'⟩ := ih hsound hrest
    refine ⟨?_, hsound'⟩
    rw [serveAll, hanswer, hanswers, serve_config]
    rfl

/-! ## The calls of requests -/

section Caller

variable {σ : Type} (caller : Caller σ)

/-- one request, with a caller -/
def serveBy (e : Engine) (s : σ) : Request → Answer × SampleCaches × σ
  | .point g x =>
    let (r, caches, s') := e.pointBy caller g x s
    (.value r, caches, s')
  | .sample g range schedule =>
    let (curve, caches, s') := e.sampleBy caller g range schedule s
    (.curve (some curve), caches, s')
  | .viewport g start stop schedule =>
    let (curve, caches, s') := e.sampleViewportBy caller g start stop schedule s
    (.curve curve, caches, s')
  | .clear g => (.done, e.caches.clear g, s)
  | .retain live => (.done, e.caches.retain live, s)

/-- The engine's own functions are these with the plain caller. -/
theorem serve_plain (e : Engine) (r : Request) : serve e r = e.keeping (serveBy .plain e e.nextId r) := by
  cases r <;> rfl

theorem serveBy_noting (e : Engine) (s : σ × List Call) (r : Request) :
    unnoted (serveBy (noting caller) e s r) = serveBy caller e s.1 r := by
  have hsample : ∀ (g : Graph) (range : SampleRange) (schedule : List Nat),
      unnoted (e.caches.sample (noting caller) g range schedule s) = e.caches.sample caller g range schedule s.1 := by
    intro g range schedule
    simp only [SampleCaches.sample, ← sample_noting, unnoted]
  cases r with
  | point g x => simp only [serveBy, Engine.pointBy, SampleCaches.get, ← get_noting, unnoted]
  | sample g range schedule => simp only [serveBy, Engine.sampleBy, ← hsample, unnoted]
  | viewport g start stop schedule =>
    simp only [serveBy, Engine.sampleViewportBy]
    split
    · rfl
    · simp only [← hsample, unnoted]
  | clear g => rfl
  | retain live => rfl

end Caller

/-- the calls noted after a request, where those of `log` were noted before -/
def logOf (e : Engine) (log : List Call) (r : Request) : List Call :=
  (serveBy (noting .plain) e (e.nextId, log) r).2.2.2

/-- **Noting the calls changes nothing else.** -/
theorem serveBy_logOf (e : Engine) (log : List Call) (r : Request) :
    serveBy (noting .plain) e (e.nextId, log) r =
      ((serve e r).1, (serve e r).2.caches, (serve e r).2.nextId, logOf e log r) := by
  have hserve : unnoted (serveBy (noting .plain) e (e.nextId, log) r) =
      ((serve e r).1, (serve e r).2.caches, (serve e r).2.nextId) := by
    rw [serveBy_noting, serve_plain]
    rfl
  rcases hp : serveBy (noting .plain) e (e.nextId, log) r with ⟨answer, caches, id, log'⟩
  rw [hp] at hserve
  cases hserve
  rw [logOf, hp]

/-- the calls noted after requests in turn -/
def logged (e : Engine) (log : List Call) : List Request → List Call
  | [] => log
  | r :: rs => logged (serve e r).2 (logOf e log r) rs

/-- all calls of graphs that the requests lead to, in order -/
def calls (e : Engine) (rs : List Request) : List Call := logged e [] rs

theorem logged_append (e : Engine) (log : List Call) (before during : List Request) :
    logged e log (before ++ during) = logged (serveAll e before).2 (logged e log before) during := by
  induction before generalizing e log with
  | nil => rfl
  | cons r before ih => exact ih (serve e r).2 (logOf e log r)

/-! ## Requests as sweeps -/

/-- the calls that a request asks for, one for each of its points -/
def Request.asks (config : Config) : Request → List Call
  | .point g x => [callAt g x]
  | .sample g range _ => (g.resolveRange range config.sampling.defaultRange).points.map (callAt g)
  | .viewport g start stop _ =>
    match config.sampling.viewport? start stop with
    | none => []
    | some range => range.points.map (callAt g)
  | .clear _ | .retain _ => []

/-- the request neither empties nor drops the cache under the identity -/
def Request.Keeps (id : Nat) : Request → Prop
  | .clear g => g.id ≠ id
  | .retain live => id ∈ live.map Graph.id
  | _ => True

/-- the caches have an entry for the call -/
def Stored (s : SampleCaches) (k : Call) : Prop := ∃ c, s.caches.lookup k.1 = some c ∧ k.2 ∈ c.points

/-- A request that asks for calls sweeps the cache of its graph. -/
structure Sweeps (e : Engine) (log : List Call) (r : Request) (g : Graph) (schedule : List Nat) (xs : List Float) :
    Prop where
  graph : g ∈ r.graphs
  asks : r.asks e.config = xs.map (callAt g)
  caches : (serve e r).2.caches = e.caches.set g.id ((e.caches.cacheFor g).sweep .plain schedule xs e.nextId).2.1
  log : logOf e log r = ((e.caches.cacheFor g).sweep (noting .plain) schedule xs (e.nextId, log)).2.2.2

/-- **What a request is**: a sweep, or else it makes no calls, and an entry that it does not keep is of a callable that
it clears or drops. -/
theorem serve_cases (e : Engine) (log : List Call) (r : Request) :
    (∃ g schedule xs, Sweeps e log r g schedule xs) ∨
      (r.asks e.config = [] ∧ logOf e log r = log ∧
        ∀ k, r.Keeps k.1 → Stored e.caches k → Stored (serve e r).2.caches k) := by
  cases r with
  | point g x => exact Or.inl ⟨g, [], [x], List.mem_cons_self, rfl, rfl, rfl⟩
  | sample g range schedule => exact Or.inl ⟨g, schedule, _, List.mem_cons_self, rfl, rfl, rfl⟩
  | viewport g start stop schedule =>
    cases hrange : e.config.sampling.viewport? start stop with
    | none =>
      refine Or.inr ⟨by simp only [Request.asks, hrange], ?_, fun k _ hk => ?_⟩
      · simp only [logOf, serveBy, Engine.sampleViewportBy, hrange]
      · simpa only [serve, Engine.sampleViewport, Engine.sampleViewportBy, Engine.keeping, hrange] using hk
    | some range =>
      refine Or.inl ⟨g, schedule, range.points, List.mem_cons_self, ?_, ?_, ?_⟩
      · simp only [Request.asks, hrange]
      · simp only [serve, Engine.sampleViewport, Engine.sampleViewportBy, Engine.keeping, hrange]
        rfl
      · simp only [logOf, serveBy, Engine.sampleViewportBy, hrange]
        rfl
  | clear g =>
    refine Or.inr ⟨rfl, rfl, fun k hkeep => ?_⟩
    rintro ⟨c, hc, hk⟩
    exact ⟨c, (lookup_clear e.caches g k.1).trans ((if_neg fun heq => hkeep heq.symm).trans hc), hk⟩
  | retain live =>
    refine Or.inr ⟨rfl, rfl, fun k hkeep => ?_⟩
    rintro ⟨c, hc, hk⟩
    exact ⟨c, (lookup_retain e.caches live k.1).trans ((if_pos hkeep).trans hc), hk⟩

/-! ## How often a callable is called -/

section Counts

variable {G : Graph → Prop} {e : Engine} {r : Request} {k : Call}

theorem cacheFor_stored (h : Stored e.caches k) {g : Graph} (hid : g.id = k.1) :
    k.2 ∈ (e.caches.cacheFor g).points := by
  obtain ⟨c, hc, hk⟩ := h
  rw [SampleCaches.cacheFor, hid, hc]
  exact hk

theorem logOf_sample (e : Engine) (log : List Call) (g : Graph) (range : Option SampleRange) (schedule : List Nat) :
    logOf e log (.sample g range schedule) = ((e.caches.cacheFor g).sweep (noting .plain) schedule
      (g.resolveRange range e.config.sampling.defaultRange).points (e.nextId, log)).2.2.2 := rfl

/-- **The calls of a request** are among those that it asks for. -/
theorem logOf_subperm (h : Sound G e.caches) (hr : ∀ g ∈ r.graphs, G g) (log : List Call) :
    (logOf e log r).Subperm (log ++ r.asks e.config) := by
  rcases serve_cases e log r with ⟨g, schedule, xs, hsweeps⟩ | ⟨hasks, hlog, -⟩
  · obtain ⟨-, hid, -⟩ := cacheFor_sound h (hr g hsweeps.graph)
    have hcalls := sweep_calls .plain (e.caches.cacheFor g) schedule xs (e.nextId, log)
    rw [show callAt (e.caches.cacheFor g).graph = callAt g by unfold callAt; rw [hid]] at hcalls
    rwa [hsweeps.log, hsweeps.asks]
  · rw [hlog, hasks, List.append_nil]

theorem logOf_log (e : Engine) (log : List Call) (r : Request) : log <+: logOf e log r := by
  rcases serve_cases e log r with ⟨g, schedule, xs, hsweeps⟩ | ⟨-, hlog, -⟩
  · exact hsweeps.log ▸ sweep_log .plain _ schedule xs (e.nextId, log)
  · rw [hlog]

/-- A request makes no call that it does not ask for. -/
theorem logOf_other (h : Sound G e.caches) (hr : ∀ g ∈ r.graphs, G g) (hk : k ∉ r.asks e.config) (log : List Call) :
    (logOf e log r).count k = log.count k := by
  have hmost := (logOf_subperm h hr log).count_le k
  rw [List.count_append, List.count_eq_zero_of_not_mem hk] at hmost
  exact Nat.le_antisymm hmost ((logOf_log e log r).sublist.count_le k)

/-- Where there is an entry, no request makes the call. -/
theorem logOf_stored (h : Sound G e.caches) (hr : ∀ g ∈ r.graphs, G g) (hk : Stored e.caches k) (log : List Call) :
    (logOf e log r).count k = log.count k := by
  by_cases hasked : k ∈ r.asks e.config
  · rcases serve_cases e log r with ⟨g, schedule, xs, hsweeps⟩ | ⟨-, hlog, -⟩
    · obtain ⟨-, hid, -⟩ := cacheFor_sound h (hr g hsweeps.graph)
      obtain ⟨x, -, rfl⟩ := List.mem_map.1 (hsweeps.asks ▸ hasked)
      have hquiet := sweep_known .plain (cacheFor_stored hk rfl) schedule xs (e.nextId, log)
      rw [hid] at hquiet
      rwa [hsweeps.log]
    · rw [hlog]
  · exact logOf_other h hr hasked log

/-- A request keeps the entries of callables that it does not empty or drop. -/
theorem stored_serve (hG : InUse G) (h : Sound G e.caches) (hr : ∀ g ∈ r.graphs, G g) (hkeep : r.Keeps k.1)
    (hk : Stored e.caches k) : Stored (serve e r).2.caches k := by
  rcases serve_cases e [] r with ⟨g, schedule, xs, hsweeps⟩ | ⟨-, -, hstored⟩
  · obtain ⟨hin, -, hholds⟩ := cacheFor_sound h (hr g hsweeps.graph)
    obtain ⟨-, -, -, hkeys⟩ := sweep_direct (hG.pure _ hin) hholds schedule xs e.nextId
    rw [hsweeps.caches]
    by_cases hsame : k.1 = g.id
    · refine ⟨_, (lookup_put ..).trans (if_pos hsame), (hkeys k.2).2 (Or.inl ?_)⟩
      exact cacheFor_stored hk hsame.symm
    · obtain ⟨c, hc, hmem⟩ := hk
      exact ⟨c, (lookup_put ..).trans ((if_neg hsame).trans hc), hmem⟩
  · exact hstored k hkeep hk

/-- **A success that is asked for is stored.** -/
theorem stored_asked (hG : InUse G) (h : Sound G e.caches) (hr : ∀ g ∈ r.graphs, G g) {g : Graph} (hg : G g) {x : Float}
    {v : Value} (hv : result g x = .ok v) (hasked : callAt g x ∈ r.asks e.config) :
    Stored (serve e r).2.caches (callAt g x) := by
  rcases serve_cases e [] r with ⟨g', schedule, xs, hsweeps⟩ | ⟨hnone, -, -⟩
  · obtain ⟨hin, hid, hholds⟩ := cacheFor_sound h (hr g' hsweeps.graph)
    obtain ⟨-, -, -, hkeys⟩ := sweep_direct (hG.pure _ hin) hholds schedule xs e.nextId
    obtain ⟨y, hy, heq⟩ := List.mem_map.1 (hsweeps.asks ▸ hasked)
    have hsame : g'.id = g.id := congrArg Prod.fst heq
    have hbits : y.toBits = x.toBits := congrArg Prod.snd heq
    have hresult : result (e.caches.cacheFor g').graph y = .ok v := by
      rw [Float.toBits_inj.1 hbits, ← hv]
      exact result_congr hG hin hg (hid.trans hsame) x
    rw [hsweeps.caches]
    exact ⟨_, (lookup_put ..).trans (if_pos hsame.symm), (hkeys _).2 (Or.inr ⟨y, hy, hbits, v, hresult⟩)⟩
  · rw [hnone] at hasked
    cases hasked

/-- No calls are made of what is stored, as long as no request empties or drops the cache. -/
theorem logged_stored (hG : InUse G) {rs : List Request} (h : Sound G e.caches) (hrs : ∀ r ∈ rs, ∀ g ∈ r.graphs, G g)
    (hkeep : ∀ r ∈ rs, r.Keeps k.1) (hk : Stored e.caches k) (log : List Call) :
    (logged e log rs).count k = log.count k := by
  induction rs generalizing e log with
  | nil => rfl
  | cons r rs ih =>
    obtain ⟨hr, hrest⟩ := List.forall_mem_cons.1 hrs
    obtain ⟨hkeepr, hkeeprest⟩ := List.forall_mem_cons.1 hkeep
    rw [logged, ih (serve_direct hG h hr).2 hrest hkeeprest (stored_serve hG h hr hkeepr hk), logOf_stored h hr hk]

/-- **The first request that asks for a success makes all calls of it**, as long as none empties or drops the cache: at
most as many as the most that one request asks for. -/
theorem logged_le (hG : InUse G) {rs : List Request} (h : Sound G e.caches) (hrs : ∀ r ∈ rs, ∀ g ∈ r.graphs, G g)
    {g : Graph} (hg : G g) {x : Float} {v : Value} (hv : result g x = .ok v) (hkeep : ∀ r ∈ rs, r.Keeps g.id) {m : Nat}
    (hmost : ∀ r ∈ rs, (r.asks e.config).count (callAt g x) ≤ m) (log : List Call) :
    (logged e log rs).count (callAt g x) ≤ log.count (callAt g x) + m := by
  induction rs generalizing e log with
  | nil => exact Nat.le_add_right _ _
  | cons r rs ih =>
    obtain ⟨hr, hrest⟩ := List.forall_mem_cons.1 hrs
    obtain ⟨-, hkeeprest⟩ := List.forall_mem_cons.1 hkeep
    obtain ⟨hmostr, hmostrest⟩ := List.forall_mem_cons.1 hmost
    have hsound := (serve_direct hG h hr).2
    by_cases hasked : callAt g x ∈ r.asks e.config
    · rw [logged, logged_stored hG hsound hrest hkeeprest (stored_asked hG h hr hg hv hasked)]
      have hcalls := (logOf_subperm h hr log).count_le (callAt g x)
      rw [List.count_append] at hcalls
      omega
    · have hothers := ih hsound hrest hkeeprest (by rwa [serve_config]) (logOf e log r)
      rwa [logOf_other h hr hasked] at hothers

end Counts

/-! ## Purity -/

/-- Identities are all that one call can have different from another. -/
theorem invoke_alike (g : Graph) (x : Float) (m n : Nat) :
    Outcomes Eq (fun p p' : Value × Nat => Alike FreeNames.byFreeNames p.1 p'.1) (g.invoke x m) (g.invoke x n) := by
  have hargs : List.Forall₂ (Alike FreeNames.byFreeNames) [.float x] [.float x] := .cons (.float x) .nil
  exact FreeNames.alike_bisimulation.call _ _ (alike_refl _) maxCalls _ _ m n hargs

/-- **A graph that gives numbers is pure.** -/
theorem pure_of_numbers {g : Graph} (h : ∀ x id v id', g.invoke x id = .ok (v, id') → v.function? = none) : Pure g := by
  intro x id
  have hcalls := invoke_alike g x id 0
  unfold result
  cases hid : g.invoke x id with
  | error err =>
    rw [hid] at hcalls
    cases hzero : g.invoke x 0 with
    | error err' =>
      rw [hzero] at hcalls
      cases hcalls with
      | error heq => rw [heq]
    | ok p => rw [hzero] at hcalls; cases hcalls
  | ok p =>
    rw [hid] at hcalls
    cases hzero : g.invoke x 0 with
    | error err => rw [hzero] at hcalls; cases hcalls
    | ok p' =>
      rw [hzero] at hcalls
      cases hcalls with
      | ok halike =>
        have heq : p'.1 = p.1 := FreeNames.alike_bisimulation.plain _ _ halike (h x id p.1 p.2 hid)
        simp only [Except.map, heq]

/-! ## Main result -/

/-- **The sample caches cannot be noticed.** A request whose calls are noted is served as the engine serves it. From any
engine whose caches hold results, as a new engine's empty ones do, and for any requests about graphs in use, whatever the
schedules of their sweeps:
- the answers are those of calling the graphs each time, and the caches hold results afterwards, each under the identity
  of its graph; where calling the graph fails there is no entry;
- once a request has asked for a success, no call of it is made until a request empties or drops the cache, and as long
  as none does, there are no more calls of it than one of the requests asks for.
Clearing empties the cache of that callable and no other, and retaining keeps exactly the caches of live identities. -/
theorem caches_transparent :
    (∀ (base : Registry) (id : Nat) (config : Config) (roots : List String) (source : PluginSource)
      (G : Graph → Prop), Sound G (Engine.ofRegistry base id config roots source).1.caches) ∧
    (∀ (e : Engine) (log : List Call) (r : Request), serveBy (noting .plain) e (e.nextId, log) r =
      ((serve e r).1, (serve e r).2.caches, (serve e r).2.nextId, logOf e log r)) ∧
    (∀ (G : Graph → Prop) (e : Engine) (requests : List Request), InUse G → Sound G e.caches →
      (∀ r ∈ requests, ∀ g ∈ r.graphs, G g) →
        (serveAll e requests).1 = requests.map (direct e.config) ∧ Sound G (serveAll e requests).2.caches ∧
        (∀ id c x err, (serveAll e requests).2.caches.caches.lookup id = some c → result c.graph x = .error err →
          c.points[x.toBits]? = none) ∧
        (∀ before r during, requests = before ++ r :: during → ∀ g x v, G g → result g x = .ok v →
          callAt g x ∈ r.asks e.config → (∀ r' ∈ during, r'.Keeps g.id) →
            (calls e requests).count (callAt g x) = (calls e (before ++ [r])).count (callAt g x)) ∧
        ∀ before during, requests = before ++ during → ∀ g x v m, G g → result g x = .ok v →
          (∀ r ∈ during, r.Keeps g.id) → (∀ r ∈ during, (r.asks e.config).count (callAt g x) ≤ m) →
            (calls e requests).count (callAt g x) ≤ (calls e before).count (callAt g x) + m) ∧
    (∀ (e : Engine) (g : Graph) (id : Nat), (e.clearCache g).caches.caches.lookup id =
      if id = g.id then (e.caches.caches.lookup id).map fun c => ⟨c.graph, ∅⟩ else e.caches.caches.lookup id) ∧
    (∀ (e : Engine) (live : List Graph) (id : Nat), (e.retain live).caches.caches.lookup id =
      if id ∈ live.map Graph.id then e.caches.caches.lookup id else none) := by
  refine ⟨fun _ _ _ _ _ G => sound_empty G, serveBy_logOf, ?_, fun e => lookup_clear e.caches,
    fun e => lookup_retain e.caches⟩
  intro G e requests hG h hrequests
  obtain ⟨hanswers, hsound⟩ := serveAll_direct hG h hrequests
  refine ⟨hanswers, hsound, ?_, ?_, ?_⟩
  · intro id c x err hc herr
    exact (hsound id c hc).2.2.none_of_error herr
  · rintro before r during rfl g x v hg hv hasked hkeep
    obtain ⟨hbefore, hafter⟩ := List.forall_mem_append.1 hrequests
    obtain ⟨hr, hduring⟩ := List.forall_mem_cons.1 hafter
    have hmiddle := (serveAll_direct hG h hbefore).2
    have hstored := stored_asked hG hmiddle hr hg hv (by rwa [serveAll_config])
    rw [calls, calls, logged_append, logged_append, logged]
    exact logged_stored hG (serve_direct hG hmiddle hr).2 hduring hkeep hstored _
  · rintro before during rfl g x v m hg hv hkeep hmost
    obtain ⟨hbefore, hduring⟩ := List.forall_mem_append.1 hrequests
    rw [calls, calls, logged_append]
    exact logged_le hG (serveAll_direct hG h hbefore).2 hduring hg hv hkeep (by rwa [serveAll_config]) _

/-! ## Witness: two graphs of one function -/

/-- `fn(x) => x * x` -/
def square : FunctionValue :=
  ⟨some "sq", 7, .script ⟨["x"], .binary ⟨9, 14⟩ .mul (.var ⟨9, 10⟩ "x") (.var ⟨13, 14⟩ "x"), .empty, .empty⟩, none⟩

/-- the function as a graph without a range of its own -/
def wide : Graph := ⟨square, none⟩

/-- the function as a graph over the interval from 0 to 1 -/
def narrow : Graph := ⟨square, some ⟨0.0, 1.0, 0.5⟩⟩

/-- an engine with nothing registered and no caches -/
def plainEngine : Engine := ⟨.standard, [], .empty, .empty, [], .empty, 8⟩

/-- requests for both graphs, with a clearing and a drop; the points of the second sweep are looked up together -/
def squares : List Request :=
  [.point wide 3.0, .sample narrow none [], .clear narrow, .point narrow 3.0, .viewport wide 0.0 3.0 [0, 1, 2, 3],
    .retain []]

theorem square_call (g : Graph) (hg : g.function = square) (x : Float) (id : Nat) :
    g.invoke x id = (Value.finite .mul (x * x)).map fun v => (v, id) := by
  unfold Graph.invoke
  rw [hg]
  change Eval.unlocated (Eval.located ⟨9, 14⟩ (Eval.lift (Value.finite .mul (x * x)))) id = _
  unfold Eval.unlocated Eval.located Eval.lift
  cases Value.finite .mul (x * x) <;> rfl

theorem squares_inUse : InUse fun g => g.function = square where
  pure g hg := by
    refine pure_of_numbers fun x id v id' hv => ?_
    rw [square_call g hg] at hv
    obtain ⟨w, hw, heq⟩ := Readers.map_eq_ok hv
    cases heq
    unfold Value.finite at hw
    split at hw
    · cases hw; rfl
    · cases hw
  callable g h hg hh _ := by rw [hg, hh]; exact ⟨rfl, rfl⟩

theorem square_result {x : Float} (hfinite : (x * x).isFinite = true) : result wide x = .ok (.float (x * x)) := by
  rw [result, square_call wide rfl, Value.finite, if_pos hfinite]
  rfl

/-- The two graphs share a cache, and each request is answered for its own graph. After the clearing, the request for the
square of 3 at one point asks for it, so the sweep after it makes no call with 3. -/
theorem squares_transparent :
    wide.id = narrow.id ∧ wide.range.isSome ≠ narrow.range.isSome ∧ InUse (fun g => g.function = square) ∧
      (∀ r ∈ squares, ∀ g ∈ r.graphs, g.function = square) ∧
      (serveAll plainEngine squares).1 = squares.map (direct plainEngine.config) ∧
      (calls plainEngine (squares.take 5)).count (callAt wide 3.0) =
        (calls plainEngine (squares.take 4)).count (callAt wide 3.0) ∧
      (calls plainEngine (squares.take 4)).count (callAt wide 3.0) ≤
        (calls plainEngine (squares.take 3)).count (callAt wide 3.0) + 1 := by
  have hgraphs : ∀ r ∈ squares, ∀ g ∈ r.graphs, g.function = square := by
    simp [squares, Request.graphs, wide, narrow]
  have hall := caches_transparent.2.2.1 _ plainEngine squares squares_inUse (sound_empty _) hgraphs
  have hpart := fun n => caches_transparent.2.2.1 _ plainEngine (squares.take n) squares_inUse (sound_empty _)
    fun r hr => hgraphs r (List.mem_of_mem_take hr)
  have hvalue : result wide 3.0 = .ok (.float (3.0 * 3.0)) := square_result (by decide +kernel)
  have hlater := (hpart 5).2.2.2.1 (squares.take 3) (.point narrow 3.0) [.viewport wide 0.0 3.0 [0, 1, 2, 3]] rfl wide 3.0
    _ rfl hvalue List.mem_cons_self (by simp [Request.Keeps])
  have honce := (hpart 4).2.2.2.2 (squares.take 3) [.point narrow 3.0] rfl wide 3.0 _ 1 rfl hvalue
    (by simp [Request.Keeps]) (by simp [Request.asks, callAt, wide, narrow, Graph.id])
  exact ⟨rfl, by decide, squares_inUse, hgraphs, hall.1, hlater, honce⟩

/-! ## A race -/

/-- A range whose step is less than the distance of the doubles there: its five points are two numbers. -/
def crowded : SampleRange := ⟨1e16, 10000000000000002.0, 0.5⟩

/-- **One number may be called several times.** The range is admitted. If the points of a sweep of it are all looked up
before any of them is called, the square of the first number is computed three times in that sweep, so it is not true
that between two drops each success is computed only once. -/
theorem squares_race :
    SampleRange.make? 1e16 10000000000000002.0 0.5 = some crowded ∧
      (calls plainEngine [.sample wide (some crowded) [0, 1, 2, 3, 4]]).count (callAt wide 1e16) = 3 ∧
      ¬ ∀ (G : Graph → Prop) (e : Engine) (before during : List Request), InUse G → Sound G e.caches →
        (∀ r ∈ before ++ during, ∀ g ∈ r.graphs, G g) → ∀ g x v, G g → result g x = .ok v →
          (∀ r ∈ during, r.Keeps g.id) →
            (calls e (before ++ during)).count (callAt g x) ≤ (calls e before).count (callAt g x) + 1 := by
  have hcalls : calls plainEngine [.sample wide (some crowded) [0, 1, 2, 3, 4]] = crowded.points.map (callAt wide) := by
    have hlength : List.range crowded.points.length = [0, 1, 2, 3, 4] := by
      rw [SampleRange.points, List.length_map, List.length_range, show crowded.pointCount = 5 by decide +kernel]
      rfl
    have hnone : ∀ x ∈ crowded.points, (SampleCache.ofGraph wide).points[x.toBits]? = none :=
      fun _ _ => HashMap.getElem?_empty
    have hrace := sweep_race .plain hnone (plainEngine.nextId, [])
    rw [hlength, List.nil_append, show (SampleCache.ofGraph wide).graph = wide from rfl] at hrace
    have hcache : plainEngine.caches.cacheFor wide = .ofGraph wide := rfl
    have hrange : wide.resolveRange (some crowded) plainEngine.config.sampling.defaultRange = crowded := rfl
    rw [calls, logged, logged, logOf_sample, hcache, hrange, hrace]
  have hcount : (calls plainEngine [.sample wide (some crowded) [0, 1, 2, 3, 4]]).count (callAt wide 1e16) = 3 := by
    rw [hcalls]
    decide +kernel
  refine ⟨rfl, hcount, fun hall => ?_⟩
  have hone := hall _ plainEngine [] [.sample wide (some crowded) [0, 1, 2, 3, 4]] squares_inUse (sound_empty _)
    (by simp [Request.graphs, wide]) wide 1e16 _ rfl (square_result (by decide +kernel)) (by simp [Request.Keeps])
  rw [List.nil_append, hcount] at hone
  have hnone : (calls plainEngine []).count (callAt wide 1e16) = 0 := rfl
  omega

end CurveScript.Transparency
