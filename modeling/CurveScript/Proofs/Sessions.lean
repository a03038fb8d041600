/-
The identities of functions in whole sessions.

A session is an engine with what its host keeps: variable tables, a document and values. The host acts on it in any
order. It runs texts, wholly or in part, and goes on with a run that is in progress; it edits its document, replaces
tables, calls functions, samples graphs, clears and drops caches, and loads the plugins again. The functions that a
session can still come to are those held by its roots: the tables, the values that the host keeps, the engine's two
registries, and the caches with their graphs.

What is assumed of the host is that the functions in the values that it hands over are functions that the session can
come to. It may give them other ranges, and it may provide native functions of its own, whose identities are taken from
the engine's counter.

A session is backed by a heap that has all its roots and in which the identities from the counter on are free. An action
takes a backed session to one that is backed by a heap that has grown.

Results:
- `judge_grown`, `take_grown`: statements and runs.
- `get_grown`, `sweep_grown`, `serve_grown`: requests for points and curves.
- `sample_called`: a sweep is calls at its points, under any schedule. `sample_points`: without one, its points in turn.
- `register_grown`, `addAll_grown`, `load_grown`: loading plugins. `standard_stocked`: the standard registry.
- `act_backed`, `lived_backed`: an action, and any number of them.
- `lived_distinct`, `registered_once`: equal identities. `evaluation_fresh`, `definition_fresh`: new ones.
- `identities_sound`: all of this for every session.
-/
import CurveScript.Proofs.Identities
import CurveScript.Proofs.Invariants
import CurveScript.Proofs.Transparency

namespace CurveScript.Sessions

open CurveScript.CallStack CurveScript.Finiteness CurveScript.Identities CurveScript.Numbers CurveScript.RunFold
open CurveScript.Schedules

/-! ## Sessions -/

/-- an engine, and what its host keeps -/
structure Session where
  engine : Engine
  tables : Nat → Bindings Value
  document : Document
  kept : List Value

/-- the values at hand in a session -/
inductive Root (s : Session) : Value → Prop where
  | bound {t : Nat} {x : String} {v : Value} (h : (s.tables t).get? x = some v) : Root s v
  | kept {v : Value} (h : v ∈ s.kept) : Root s v
  | native {x : String} {f : FunctionValue} (h : s.engine.registry.function? x = some f) : Root s (.function f)
  | base {x : String} {f : FunctionValue} (h : s.engine.base.function? x = some f) : Root s (.function f)
  | cached {id : Nat} {c : SampleCache} (h : s.engine.caches.caches.lookup id = some c) : Root s (.graph c.graph)
  | point {id : Nat} {c : SampleCache} {bits : UInt64} {v : Value} (h : s.engine.caches.caches.lookup id = some c)
      (hv : c.points[bits]? = some v) : Root s v

/-- the session can come to the function -/
def Live (s : Session) (f : FunctionValue) : Prop := ∃ v, Root s v ∧ Holds v (.function f)

/-- Every function in the value is one that the session can come to, perhaps with another range. -/
def Known (s : Session) (v : Value) : Prop :=
  ∀ f, Holds v (.function f) → ∃ g, Live s g ∧ g.id = f.id ∧ origin g = origin f

/-- what a host does -/
inductive Action where
  /-- Runs a text against a table; what is left after `limit` statements may go on later. -/
  | run (table : Nat) (source : String) (policy : ErrorPolicy) (limit : Option Nat)
  /-- Goes on with the tokens that a run has left. -/
  | resume (table : Nat) (tokens : List Token) (policy : ErrorPolicy) (limit : Option Nat)
  | edit (text : String)
  | runDocument (table : Nat) (policy : ErrorPolicy) (limit : Option Nat)
  | replace (table : Nat) (bindings : Bindings Value)
  /-- Makes a native function of the host's. -/
  | provide (name : Option String) (arity : Arity) (call : NativeCall)
  | call (f : FunctionValue) (args : List Value)
  | request (r : Transparency.Request)
  /-- Takes the cache of a graph into use. -/
  | useCache (g : Graph)
  | reload (source : PluginSource)
  /-- Keeps these values and no others. -/
  | keep (vs : List Value)

/-- the values of the statements that succeeded -/
def values (steps : List Step) : List Value := steps.filterMap fun st => st.output.toOption

/-- the value in an answer -/
def answered : Transparency.Answer → List Value
  | .value (.ok v) => [v]
  | _ => []

namespace Session

/-- the session before its first action; a new engine loads its plugins then -/
def start (base : Registry) (nextId : Nat) (config : Config) (roots : List String) : Session :=
  ⟨⟨config, roots, base, base, [], .empty, nextId⟩, fun _ => .empty, .ofSource "", []⟩

/-- the session after statements of an execution -/
def pull (s : Session) (table : Nat) (ex : Execution) (limit : Option Nat) : Session :=
  let pulled := ex.pull limit
  ⟨s.engine.after pulled.2.1, Function.update s.tables table pulled.2.1.table, s.document, s.kept ++ values pulled.1⟩

/-- the session after an action -/
def act (s : Session) : Action → Session
  | .run table source policy limit =>
    match s.engine.evaluate source (s.tables table) with
    | .ok ex => s.pull table (ex.withPolicy policy) limit
    | .error _ => s
  | .resume table tokens policy limit =>
    let ex := Execution.start tokens (s.tables table) s.engine.registry s.engine.nextId
    s.pull table (ex.withPolicy policy) limit
  | .edit text => { s with document := (s.document.setSource text).2 }
  | .runDocument table policy limit =>
    match s.engine.evaluateDocument s.document (s.tables table) with
    | (.ok ex, document) => { s with document := document }.pull table (ex.withPolicy policy) limit
    | (.error _, document) => { s with document := document }
  | .replace table bindings => { s with tables := Function.update s.tables table bindings }
  | .provide name arity call =>
    { s with
      engine := { s.engine with nextId := s.engine.nextId + 1 }
      kept := s.kept ++ [.function ⟨name, s.engine.nextId, .native arity call, none⟩] }
  | .call f args =>
    match f.call args s.engine.nextId with
    | .ok (v, nextId) => { s with engine := { s.engine with nextId := nextId }, kept := s.kept ++ [v] }
    | .error _ => s
  | .request r =>
    { s with engine := (Transparency.serve s.engine r).2, kept := s.kept ++ answered (Transparency.serve s.engine r).1 }
  | .useCache g => { s with engine := (s.engine.cacheOf g).2 }
  | .reload source => { s with engine := (s.engine.reload source).1 }
  | .keep vs => { s with kept := vs }

end Session

/-- the values that a native function has of its own have the property `P` -/
def Gives (P : Value → Prop) (call : NativeCall) : Prop := ∀ v, Own call v → P v

/-- The host hands over values with known functions only. -/
def Action.Legal (s : Session) : Action → Prop
  | .replace _ bindings => ∀ x v, bindings.get? x = some v → Known s v
  | .provide _ _ native => Gives (Known s) native
  | .call f args => Known s (.function f) ∧ ∀ v ∈ args, Known s v
  | .request r => ∀ g ∈ r.graphs, Known s (.graph g)
  | .useCache g => Known s (.graph g)
  | .reload source => ∀ c ∈ (source s.engine.roots).candidates, Invariants.Lists (Gives (Known s)) c.2
  | .keep vs => ∀ v ∈ vs, Known s v
  | .run .. | .resume .. | .edit _ | .runDocument .. => True

/-- The functions held by the values with the property `R` have identities below `n`, and one identity stands for one
name and one body. -/
structure Distinct (R : Value → Prop) (n : Nat) : Prop where
  spent : ∀ v f, R v → Holds v (.function f) → f.id < n
  one : ∀ v w f g, R v → R w → Holds v (.function f) → Holds w (.function g) → f.id = g.id → origin f = origin g

/-- A registry with the identities below `n`. Its functions bear the names that they are registered under. -/
structure Stocked (r : Registry) (n : Nat) : Prop where
  named : ∀ x f, r.function? x = some f → f.name = some x
  distinct : Distinct (fun v => ∃ x f, r.function? x = some f ∧ v = .function f) n

/-- a session that has come about by actions of a host, from an engine over a registry -/
inductive Lived : Session → Prop where
  | start {base : Registry} {nextId : Nat} (hbase : Stocked base nextId) (config : Config) (roots : List String) :
      Lived (.start base nextId config roots)
  | act {s : Session} {a : Action} (hs : Lived s) (ha : a.Legal s) : Lived (s.act a)

/-- the machine at the start of an evaluation in the session: of an expression against one of the tables, or of a
call -/
inductive Begins (s : Session) : State → Prop where
  | expression (t : Nat) (e : Expr) :
      Begins s (State.start (.global (s.tables t) s.engine.registry) e 0 s.engine.nextId)
  | call (span : Span) {f : FunctionValue} {args : List Value} (hf : Known s (.function f))
      (hargs : ∀ v ∈ args, Known s v) : Begins s ⟨.apply span f args, [], 0, s.engine.nextId⟩

/-! ## What a heap has -/

/-- the heap has all that the table holds -/
def KnowsTable (h : Heap) (t : Bindings Value) : Prop := ∀ x v, t.get? x = some v → Knows h v

/-- the heap has all that the registry holds, and its functions bear their names -/
structure KnowsRegistry (h : Heap) (r : Registry) : Prop where
  named : ∀ x f, r.function? x = some f → f.name = some x
  knows : ∀ x f, r.function? x = some f → Knows h (.function f)

/-- the heap has the graph of the cache and the values in it -/
structure KnowsCache (h : Heap) (c : SampleCache) : Prop where
  graph : Knows h (.graph c.graph)
  points : ∀ (bits : UInt64) (v : Value), c.points[bits]? = some v → Knows h v

/-- the heap has all that the caches hold -/
def KnowsCaches (h : Heap) (s : SampleCaches) : Prop := ∀ id c, s.caches.lookup id = some c → KnowsCache h c

/-- the heap has all that is at hand in the session, and the next identity is free -/
structure Backed (h : Heap) (s : Session) : Prop where
  free : FreeFrom h s.engine.nextId
  tables : ∀ t, KnowsTable h (s.tables t)
  kept : ∀ v ∈ s.kept, Knows h v
  registry : KnowsRegistry h s.engine.registry
  base : KnowsRegistry h s.engine.base
  caches : KnowsCaches h s.engine.caches

section Growth

variable {h h' : Heap}

theorem KnowsTable.mono {t : Bindings Value} (ht : KnowsTable h t) (hgrows : Grows h h') : KnowsTable h' t :=
  fun x v hv => (ht x v hv).mono hgrows

theorem KnowsRegistry.mono {r : Registry} (hr : KnowsRegistry h r) (hgrows : Grows h h') : KnowsRegistry h' r :=
  ⟨hr.named, fun x f hf => (hr.knows x f hf).mono hgrows⟩

theorem KnowsCache.mono {c : SampleCache} (hc : KnowsCache h c) (hgrows : Grows h h') : KnowsCache h' c :=
  ⟨hc.graph.mono hgrows, fun bits v hv => (hc.points bits v hv).mono hgrows⟩

theorem KnowsCaches.mono {s : SampleCaches} (hs : KnowsCaches h s) (hgrows : Grows h h') : KnowsCaches h' s :=
  fun id c hc => (hs id c hc).mono hgrows

theorem knows_kept {vs ws : List Value} (hvs : ∀ v ∈ vs, Knows h v) (hws : ∀ v ∈ ws, Knows h' v)
    (hgrows : Grows h h') : ∀ v ∈ vs ++ ws, Knows h' v := by
  intro v hv
  rcases List.mem_append.1 hv with hv | hv
  · exact (hvs v hv).mono hgrows
  · exact hws v hv

/-- one table in place of another, the others as they were -/
theorem knowsTable_update {tables : Nat → Bindings Value} (htables : ∀ u, KnowsTable h (tables u)) {t : Nat}
    {table : Bindings Value} (htable : KnowsTable h' table) (hgrows : Grows h h') (u : Nat) :
    KnowsTable h' (Function.update tables t table u) := by
  by_cases hu : u = t
  · rw [hu, Function.update_self]
    exact htable
  · rw [Function.update_of_ne hu]
    exact (htables u).mono hgrows

theorem knowsTable_empty (h : Heap) : KnowsTable h .empty := nofun

theorem KnowsTable.set {t : Bindings Value} (ht : KnowsTable h t) {x : String} {v : Value} (hv : Knows h v)
    {t' : Bindings Value} (hset : ∀ y, t'.get? y = if y = x then some v else t.get? y) : KnowsTable h t' := by
  intro y w hw
  rw [hset] at hw
  split at hw
  · cases hw
    exact hv
  · exact ht y w hw

theorem knowsScope_global {t : Bindings Value} {r : Registry} (ht : KnowsTable h t) (hr : KnowsRegistry h r) :
    KnowsScope h (.global t r) := by
  intro v hv
  cases hv with
  | arg hv => cases hv
  | bound hv => exact ht _ v hv
  | native hf => exact hr.knows _ _ hf

/-- The function of a known graph is known. -/
theorem knows_plotted {g : Graph} (hg : Knows h (.graph g)) : Knows h (.function g.function) :=
  hg.holds (Relation.ReflTransGen.single (.plotted g))

end Growth

/-! ## Runs -/

section Runs

variable {h : Heap} {registry : Registry}

/-- **Statements.** A definition makes one function, an expression as many as it evaluates lambdas. -/
theorem judge_grown {table : Bindings Value} {id : Nat} (hfree : FreeFrom h id) (ht : KnowsTable h table)
    (hr : KnowsRegistry h registry) (p : Piece) :
    Grown h (judge registry table id p).nextId fun h' => KnowsTable h' (judge registry table id p).table ∧
      ∀ span v, (judge registry table id p).verdict = .evaluated span (.ok v) → Knows h' v := by
  have hscope : KnowsScope h (.global table registry) := knowsScope_global ht hr
  have heffect := judge_effect registry table id p
  generalize judge registry table id p = j at heffect
  cases heffect with
  | unreadable => exact .same hfree ⟨ht, nofun⟩
  | failed =>
    refine .same hfree ⟨ht, ?_⟩
    rintro span v ⟨⟩
  | empty =>
    refine .same hfree ⟨ht, ?_⟩
    rintro span v ⟨⟩
    exact knows_plain rfl
  | evaluated _ hv =>
    refine (evaluate_fits hfree hscope hv).mono fun h' hgrows hknows => ⟨ht.mono hgrows, ?_⟩
    rintro span v ⟨⟩
    exact hknows
  | assigned _ hv hset =>
    refine (evaluate_fits hfree hscope hv).mono fun h' hgrows hknows => ⟨(ht.mono hgrows).set hknows hset, ?_⟩
    rintro span v ⟨⟩
    exact knows_plain rfl
  | @defined _ name params body _ _ hset =>
    have hknows := knows_made hfree hscope (some name) params body
    refine .pushed hfree ⟨(ht.mono (push_grows hfree _)).set hknows hset, ?_⟩
    rintro span v ⟨⟩
    exact knows_plain rfl

/-- A step is a judgement. -/
theorem step?_judged {policy : ErrorPolicy} {r r' : Run} {st : Step}
    (hstep : r.step? registry policy = some (st, r')) : ∃ p, st.verdict = (judge registry r.table r.nextId p).verdict ∧
      r'.table = (judge registry r.table r.nextId p).table ∧
      r'.nextId = (judge registry r.table r.nextId p).nextId := by
  cases hfinished : r.finished with
  | true =>
    rw [step?_of_finished registry policy hfinished] at hstep
    cases hstep
  | false =>
    rcases step?_eq registry policy hfinished with ⟨-, hnone⟩ | ⟨g, p, -, -, hsome⟩
    · rw [hnone] at hstep
      cases hstep
    · rw [hsome] at hstep
      cases hstep
      exact ⟨p, rfl, rfl, rfl⟩

/-- what a run gives is known, with its table -/
def KnowsRun (h : Heap) (run : List Step × Run × Bool) : Prop :=
  KnowsTable h run.2.1.table ∧ ∀ v ∈ values run.1, Knows h v

theorem output_verdict {st : Step} {v : Value} (hv : st.output = .ok v) :
    ∃ span, st.verdict = .evaluated span (.ok v) := by
  unfold Step.output at hv
  split at hv
  · cases hv
  · next span w hw =>
    cases hv
    exact ⟨span, hw⟩
  · cases hv

/-- **Any number of statements.** -/
theorem take_grown (policy : ErrorPolicy) (n : Nat) {r : Run} (hfree : FreeFrom h r.nextId)
    (ht : KnowsTable h r.table) (hr : KnowsRegistry h registry) :
    Grown h (r.take registry policy n).2.1.nextId fun h' => KnowsRun h' (r.take registry policy n) := by
  induction n generalizing r h with
  | zero => exact .same hfree ⟨ht, List.forall_mem_nil _⟩
  | succ n ih =>
    cases hstep : r.step? registry policy with
    | none =>
      rw [take_succ_none registry policy n hstep]
      exact .same hfree ⟨ht, List.forall_mem_nil _⟩
    | some next =>
      obtain ⟨st, r'⟩ := next
      obtain ⟨p, hverdict, htable, hid⟩ := step?_judged hstep
      rw [take_succ_some registry policy n hstep]
      refine (judge_grown hfree ht hr p).bind fun h' hgrows hfree' hjudged => ?_
      obtain ⟨htable', hvalue⟩ := hjudged
      rw [← hid] at hfree'
      rw [← htable] at htable'
      refine (ih hfree' htable' (hr.mono hgrows)).mono fun h'' hgrows' hrest => ⟨hrest.1, fun v hv => ?_⟩
      -- the value of the first statement is known to the heap after it, the others to the last one
      obtain ⟨st', hmem, hout⟩ := List.mem_filterMap.1 hv
      rcases List.mem_cons.1 hmem with rfl | hmem
      · cases houtput : st'.output with
        | error e =>
          rw [houtput] at hout
          cases hout
        | ok w =>
          rw [houtput] at hout
          cases hout
          obtain ⟨span, hw⟩ := output_verdict houtput
          exact (hvalue span v (hverdict.symm.trans hw)).mono hgrows'
      · exact hrest.2 v (List.mem_filterMap.2 ⟨st', hmem, hout⟩)

/-- Executions that are pulled in part or to their end. -/
theorem pull_grown {ex : Execution} (limit : Option Nat) (hfree : FreeFrom h ex.run.nextId)
    (ht : KnowsTable h ex.run.table) (hr : KnowsRegistry h ex.registry) :
    Grown h (ex.pull limit).2.1.nextId fun h' => KnowsRun h' (ex.pull limit) := by
  cases limit with
  | none => exact take_grown ex.policy _ hfree ht hr
  | some n => exact take_grown ex.policy n hfree ht hr

end Runs

/-! ## Sampling -/

section Sampling

variable {h : Heap}

theorem knowsCache_ofGraph {g : Graph} (hg : Knows h (.graph g)) : KnowsCache h (.ofGraph g) := by
  refine ⟨hg, fun bits v hv => ?_⟩
  have hnone : (SampleCache.ofGraph g).points[bits]? = none := Std.HashMap.getElem?_empty
  rw [hnone] at hv
  cases hv

theorem KnowsCache.keep {c : SampleCache} (hc : KnowsCache h c) {v : Value} (hv : Knows h v) (x : Float) :
    KnowsCache h (c.keep x v) := by
  refine ⟨hc.graph, fun bits w hw => ?_⟩
  rcases keep_entry hw with ⟨-, rfl⟩ | hold
  · exact hv
  · exact hc.points bits w hold

/-- the heap has all that a sweep holds, and the next identity is free -/
structure KnowsSweep (h : Heap) (w : Sweep Nat) : Prop where
  free : FreeFrom h w.state
  cache : KnowsCache h w.cache
  called : ∀ x v, (x, Stage.called v) ∈ w.tasks → Knows h v
  done : ∀ x v, (x, Stage.done (.ok v)) ∈ w.tasks → Knows h v

/-- **A step of a sweep.** A call that succeeds leaves its value there, with the functions that it made. -/
theorem advance_grown {w w' : Sweep Nat} (hw : Advances .plain w w') (hknows : KnowsSweep h w) :
    ∃ h', Grows h h' ∧ KnowsSweep h' w' := by
  obtain ⟨hfree, hc, hcalled, hdone⟩ := hknows
  cases hw with
  | found hfound =>
    have hv := hc.points _ _ hfound
    exact ⟨h, Grows.refl h, hfree, hc, by grind, by grind⟩
  | missed _ => exact ⟨h, Grows.refl h, hfree, hc, by grind, by grind⟩
  | @called c id id' _ _ x v hcall =>
    have hargs : ∀ a ∈ [Value.float x], Knows h a := fun a ha => List.mem_singleton.1 ha ▸ knows_plain rfl
    obtain ⟨h', hgrows, hfree', hv⟩ := call_fits hfree (knows_plotted hc.graph) hargs (plain_ok hcall)
    have hmono : ∀ {u : Value}, Knows h u → Knows h' u := fun hu => hu.mono hgrows
    exact ⟨h', hgrows, hfree', hc.mono hgrows, by grind, by grind⟩
  | failed hcall =>
    obtain ⟨-, rfl⟩ := plain_error hcall
    exact ⟨h, Grows.refl h, hfree, hc, by grind, by grind⟩
  | kept =>
    have hv := hcalled _ _ (List.mem_append_right _ List.mem_cons_self)
    exact ⟨h, Grows.refl h, hfree, hc.keep hv _, by grind, by grind⟩

/-- **Sweeps**, whatever the schedule. -/
theorem sweep_grown {c : SampleCache} (hc : KnowsCache h c) (schedule : List Nat) (xs : List Float) {id : Nat}
    (hfree : FreeFrom h id) :
    Grown h (c.sweep .plain schedule xs id).2.2 fun h' => KnowsCache h' (c.sweep .plain schedule xs id).2.1 ∧
      ∀ x v, (x, Except.ok v) ∈ (c.sweep .plain schedule xs id).1 → Knows h' v := by
  have hstart : ∃ h', Grows h h' ∧ KnowsSweep h' (c.start xs id) :=
    ⟨h, Grows.refl h, hfree, hc, by simp [SampleCache.start], by simp [SampleCache.start]⟩
  have hstep : ∀ {w w' : Sweep Nat}, Advances .plain w w' → (∃ h', Grows h h' ∧ KnowsSweep h' w) →
      ∃ h', Grows h h' ∧ KnowsSweep h' w' := by
    rintro w w' hw ⟨h₁, hgrows, hknows⟩
    obtain ⟨h₂, hgrows', hknows'⟩ := advance_grown hw hknows
    exact ⟨h₂, hgrows.trans hgrows', hknows'⟩
  obtain ⟨h', hgrows, hfree', hcache, -, hdone⟩ := sweep_keeps .plain hstep hstart schedule
  exact ⟨h', hgrows, hfree', hcache, fun x v hv => hdone x v (List.mem_map.2 ⟨_, hv, rfl⟩)⟩

/-- **Points.** -/
theorem get_grown {c : SampleCache} (hc : KnowsCache h c) (x : Float) {id : Nat} (hfree : FreeFrom h id) :
    Grown h (c.get .plain x id).2.2 fun h' =>
      KnowsCache h' (c.get .plain x id).2.1 ∧ ∀ v, (c.get .plain x id).1 = .ok v → Knows h' v :=
  (sweep_grown hc [] [x] hfree).mono fun _ _ hsweep =>
    ⟨hsweep.1, fun v hv => hsweep.2 x v (List.mem_singleton.2 (Prod.ext rfl hv.symm))⟩

theorem cacheFor_known {s : SampleCaches} (hs : KnowsCaches h s) {g : Graph} (hg : Knows h (.graph g)) :
    KnowsCache h (s.cacheFor g) := by
  unfold SampleCaches.cacheFor
  cases hlookup : s.caches.lookup g.id with
  | some c => exact hs g.id c hlookup
  | none => exact knowsCache_ofGraph hg

theorem KnowsCaches.set {s : SampleCaches} (hs : KnowsCaches h s) {c : SampleCache} (hc : KnowsCache h c) (id : Nat) :
    KnowsCaches h (s.set id c) := by
  intro other d hd
  rw [SampleCaches.set, Transparency.lookup_put] at hd
  split at hd
  · cases hd
    exact hc
  · exact hs other d hd

theorem clear_known {s : SampleCaches} (hs : KnowsCaches h s) (g : Graph) : KnowsCaches h (s.clear g) := by
  intro id c hc
  rw [Transparency.lookup_clear] at hc
  split at hc
  · obtain ⟨d, hd, rfl⟩ := Option.map_eq_some_iff.1 hc
    exact knowsCache_ofGraph (hs id d hd).graph
  · exact hs id c hc

theorem retain_known {s : SampleCaches} (hs : KnowsCaches h s) (live : List Graph) : KnowsCaches h (s.retain live) := by
  intro id c hc
  rw [Transparency.lookup_retain] at hc
  split at hc
  · exact hs id c hc
  · cases hc

theorem sample_grown {s : SampleCaches} (hs : KnowsCaches h s) {g : Graph} (hg : Knows h (.graph g))
    (range : SampleRange) (schedule : List Nat) {id : Nat} (hfree : FreeFrom h id) :
    Grown h (s.sample .plain g range schedule id).2.2 fun h' =>
      KnowsCaches h' (s.sample .plain g range schedule id).2.1 :=
  (sweep_grown (cacheFor_known hs hg) schedule range.points hfree).mono fun _ hgrows hsweep =>
    (hs.mono hgrows).set hsweep.1 g.id

/-- **Requests.** -/
theorem serve_grown {e : Engine} (hfree : FreeFrom h e.nextId) (hs : KnowsCaches h e.caches)
    {r : Transparency.Request} (hr : ∀ g ∈ r.graphs, Knows h (.graph g)) :
    Grown h (Transparency.serve e r).2.nextId fun h' => KnowsCaches h' (Transparency.serve e r).2.caches ∧
      ∀ v ∈ answered (Transparency.serve e r).1, Knows h' v := by
  cases r with
  | point g x =>
    refine (get_grown (cacheFor_known hs (hr g List.mem_cons_self)) x hfree).mono fun h' hgrows hget => ?_
    refine ⟨(hs.mono hgrows).set hget.1 g.id, fun v hv => ?_⟩
    unfold answered at hv
    split at hv
    · next w hw =>
      rw [List.mem_singleton.1 hv]
      exact hget.2 w (Transparency.Answer.value.inj hw)
    · cases hv
  | sample g range schedule =>
    exact (sample_grown hs (hr g List.mem_cons_self) _ schedule hfree).mono fun h' _ hs' => ⟨hs', List.forall_mem_nil _⟩
  | viewport g start stop schedule =>
    simp only [Transparency.serve, Engine.sampleViewport, Engine.sampleViewportBy, Engine.keeping]
    cases e.config.sampling.viewport? start stop with
    | none => exact .same hfree ⟨hs, List.forall_mem_nil _⟩
    | some range =>
      exact (sample_grown hs (hr g List.mem_cons_self) range schedule hfree).mono fun h' _ hs' =>
        ⟨hs', List.forall_mem_nil _⟩
  | clear g => exact .same hfree ⟨clear_known hs g, List.forall_mem_nil _⟩
  | retain live => exact .same hfree ⟨retain_known hs live, List.forall_mem_nil _⟩

theorem serve_registry (e : Engine) (r : Transparency.Request) :
    (Transparency.serve e r).2.registry = e.registry ∧ (Transparency.serve e r).2.base = e.base := by
  cases r <;> exact ⟨rfl, rfl⟩

end Sampling

/-! ## Sweeps are calls -/

theorem put_put (id : Nat) (c d : SampleCache) (l : List (Nat × SampleCache)) :
    SampleCaches.put id c (SampleCaches.put id d l) = SampleCaches.put id c l := by
  induction l with
  | nil => simp [SampleCaches.put]
  | cons p l ih =>
    obtain ⟨n, b⟩ := p
    by_cases hn : n = id
    · simp [SampleCaches.put, hn]
    · simp [SampleCaches.put, hn, ih]

theorem set_set (s : SampleCaches) (id : Nat) (c d : SampleCache) : (s.set id d).set id c = s.set id c :=
  congrArg SampleCaches.mk (put_put id c d s.caches)

theorem cacheFor_set (s : SampleCaches) (g : Graph) (c : SampleCache) : (s.set g.id c).cacheFor g = c := by
  unfold SampleCaches.cacheFor
  rw [SampleCaches.set, Transparency.lookup_put, if_pos rfl]
  rfl

/-- Requests for points, of a graph that has its cache already, sweep the cache in turn. -/
theorem serveAll_points (e : Engine) (s : SampleCaches) (g : Graph) (c : SampleCache) (id : Nat) (xs : List Float) :
    (Transparency.serveAll { e with caches := s.set g.id c, nextId := id } (xs.map (.point g))).2 =
      { e with
        caches := s.set g.id (c.sweep .plain [] xs id).2.1
        nextId := (c.sweep .plain [] xs id).2.2 } := by
  induction xs generalizing c id with
  | nil => rfl
  | cons x xs ih =>
    have hfirst : (Transparency.serve { e with caches := s.set g.id c, nextId := id } (.point g x)).2 =
        { e with caches := s.set g.id (c.get .plain x id).2.1, nextId := (c.get .plain x id).2.2 } := by
      simp only [Transparency.serve, Engine.point, Engine.keeping, Engine.pointBy, SampleCaches.get, cacheFor_set, set_set]
    rw [List.map_cons, Transparency.serveAll]
    simp only [hfirst]
    exact ih _ _

/-- **Without a schedule a sweep is its points in turn**: the engine after it is the engine with the graph's cache in use,
after the requests for the points. -/
theorem sample_points (e : Engine) (g : Graph) (range : Option SampleRange) :
    (e.sample g range []).2 = (Transparency.serveAll (e.cacheOf g).2
      ((g.resolveRange range e.config.sampling.defaultRange).points.map (.point g))).2 :=
  (serveAll_points e e.caches g (e.caches.cacheFor g) e.nextId _).symm

/-- the counter of identities after calls of a graph, one after the other -/
def counted (g : Graph) (called : List Float) (id : Nat) : Nat := called.foldl (fun n x => (Caller.plain g x n).2) id

/-- the value of one of the calls -/
def Called (g : Graph) (called : List Float) (id : Nat) (v : Value) : Prop :=
  ∃ before x after n, called = before ++ x :: after ∧ g.invoke x (counted g before id) = .ok (v, n)

theorem Called.append {g : Graph} {called : List Float} {id : Nat} {v : Value} (h : Called g called id v)
    (more : List Float) : Called g (called ++ more) id v := by
  obtain ⟨before, x, after, n, rfl, hv⟩ := h
  exact ⟨before, x, after ++ more, n, by simp, hv⟩

theorem counted_concat (g : Graph) (called : List Float) (x : Float) (id : Nat) :
    counted g (called ++ [x]) id = (Caller.plain g x (counted g called id)).2 := List.foldl_concat _ _ _ _

/-- A sweep of the points `xs` through the cache `c` after some calls: the counter is where they left it, and a value
that is held was in the cache before or is that of one of them. -/
structure ByCalls (c : SampleCache) (xs : List Float) (id : Nat) (called : List Float) (w : Sweep Nat) : Prop where
  graph : w.cache.graph = c.graph
  points : w.tasks.map Prod.fst = xs
  among : ∀ x ∈ called, x ∈ xs
  counter : w.state = counted c.graph called id
  entries : ∀ (bits : UInt64) v, w.cache.points[bits]? = some v → c.points[bits]? = some v ∨ Called c.graph called id v
  calls : ∀ x v, (x, Stage.called v) ∈ w.tasks → Called c.graph called id v

theorem byCalls_step {c : SampleCache} {xs : List Float} {id : Nat} {w w' : Sweep Nat} (hw : Advances .plain w w')
    (h : ∃ called, ByCalls c xs id called w) : ∃ called, ByCalls c xs id called w' := by
  obtain ⟨called, hgraph, hpoints, hamong, hcounter, hentries, hcalls⟩ := h
  -- a point that is called is one more call, whether it succeeds or fails
  have hmore : ∀ x ∈ w.tasks.map Prod.fst, ∀ y ∈ called ++ [x], y ∈ xs := by
    rw [hpoints]
    grind
  have hlater : ∀ (x : Float) (bits : UInt64) v, w.cache.points[bits]? = some v →
      c.points[bits]? = some v ∨ Called c.graph (called ++ [x]) id v :=
    fun x bits v hv => (hentries bits v hv).imp_right fun h => h.append [x]
  cases hw with
  | found _ => exact ⟨called, hgraph, by simpa using hpoints, hamong, hcounter, hentries, by grind⟩
  | missed _ => exact ⟨called, hgraph, by simpa using hpoints, hamong, hcounter, hentries, by grind⟩
  | @called _ _ n' _ _ x v hcall =>
    dsimp only at hgraph hcounter
    rw [hgraph, hcounter] at hcall
    have hv : Called c.graph (called ++ [x]) id v := ⟨called, x, [], n', rfl, plain_ok hcall⟩
    refine ⟨called ++ [x], hgraph, by simpa using hpoints, hmore x (by simp), ?_, hlater x, fun y u hu => ?_⟩
    · rw [counted_concat, hcall]
    · have hold : u = v ∨ Called c.graph called id u := by grind
      exact hold.elim (fun heq => heq ▸ hv) fun h => h.append [x]
  | @failed _ _ _ _ _ x _ hcall =>
    dsimp only at hgraph hcounter
    rw [hgraph, hcounter] at hcall
    refine ⟨called ++ [x], hgraph, by simpa using hpoints, hmore x (by simp), ?_, hlater x, fun y u hu => ?_⟩
    · rw [counted_concat, hcall]
    · exact (hcalls y u (by grind)).append [x]
  | @kept _ _ _ _ x v =>
    have hv := hcalls x v (List.mem_append_right _ List.mem_cons_self)
    refine ⟨called, hgraph, by simpa using hpoints, hamong, hcounter, fun bits u hu => ?_, by grind⟩
    rcases keep_entry hu with ⟨-, rfl⟩ | hold
    · exact Or.inr hv
    · exact hentries bits u hold

/-- **Under any schedule a sweep is calls**, at points of its range, one after the other: they alone move the counter, and
what the cache holds after it and did not hold before is the value of one of them. -/
theorem sample_called (e : Engine) (g : Graph) (range : Option SampleRange) (schedule : List Nat) :
    ∃ called, ∃ c : SampleCache, (∀ x ∈ called, x ∈ (g.resolveRange range e.config.sampling.defaultRange).points) ∧
      (e.sample g range schedule).2 =
        { e with
          caches := e.caches.set g.id c
          nextId := counted (e.caches.cacheFor g).graph called e.nextId } ∧
      c.graph = (e.caches.cacheFor g).graph ∧
      ∀ (bits : UInt64) v, c.points[bits]? = some v →
        (e.caches.cacheFor g).points[bits]? = some v ∨ Called (e.caches.cacheFor g).graph called e.nextId v := by
  let xs := (g.resolveRange range e.config.sampling.defaultRange).points
  have hstart : ∃ called, ByCalls (e.caches.cacheFor g) xs e.nextId called
      ((e.caches.cacheFor g).start xs e.nextId) :=
    ⟨[], rfl, by simp [SampleCache.start, Function.comp_def], nofun, rfl, fun _ _ => Or.inl, by simp [SampleCache.start]⟩
  obtain ⟨called, hgraph, -, hamong, hcounter, hentries, -⟩ := sweep_keeps .plain byCalls_step hstart schedule
  refine ⟨called, _, hamong, ?_, hgraph, hentries⟩
  simp only [← hcounter]
  rfl

/-! ## Loading -/

section Loading

variable {h : Heap}

theorem Gives.mono {P Q : Value → Prop} {call : NativeCall} (hcall : Gives P call) (himp : ∀ v, P v → Q v) :
    Gives Q call := fun v hv => himp v (hcall v hv)

/-- A native function is known once its identity is given out for it. -/
theorem knows_native {id : Nat} (hfree : FreeFrom h id) {call : NativeCall} (hcall : Gives (Knows h) call)
    (name : Option String) (arity : Arity) :
    Knows (push h id (name, .native arity call)) (.function ⟨name, id, .native arity call, none⟩) := by
  refine knows_pushed (f := ⟨name, id, .native arity call, none⟩) hfree fun w hw => ?_
  cases hw with
  | own hf hw =>
    cases hf
    exact hcall w hw
  | captured hf | constant hf | native hf | literal hf => cases hf
  | functionRange hr => cases hr

/-- **One registration.** -/
theorem register_grown {r r' : Registry} {name : String} {info : FunctionInfo} {call : NativeCall} {source : Source}
    {id : Nat} (hfree : FreeFrom h id) (hr : KnowsRegistry h r) (hcall : Gives (Knows h) call)
    (hregister : r.register name info call source id = .ok r') : Grown h (id + 1) fun h' => KnowsRegistry h' r' := by
  obtain ⟨-, -, hget⟩ := Invariants.register_eq_ok hregister
  have hfunction : ∀ x f, r'.function? x = some f →
      (x = name ∧ f = ⟨some name, id, .native info.arity call, none⟩) ∨ r.function? x = some f := by
    intro x f hf
    unfold Registry.function? at hf
    rw [hget] at hf
    split at hf
    · next hx =>
      cases hf
      exact Or.inl ⟨hx, rfl⟩
    · exact Or.inr hf
  have hknows := knows_native hfree hcall (some name) info.arity
  refine .pushed hfree (o := (some name, .native info.arity call)) ⟨fun x f hf => ?_, fun x f hf => ?_⟩
  · rcases hfunction x f hf with ⟨rfl, rfl⟩ | hold
    · rfl
    · exact hr.named x f hold
  · rcases hfunction x f hf with ⟨rfl, rfl⟩ | hold
    · exact hknows
    · exact (hr.knows x f hold).mono (push_grows hfree _)

theorem add_grown {s : Plugin.Staged} (hfree : FreeFrom h s.nextId) (hr : KnowsRegistry h s.registry)
    (plugin path : String) (info : FunctionInfo) {call : NativeCall} (hcall : Gives (Knows h) call) :
    Grown h (s.add plugin path info call).nextId fun h' => KnowsRegistry h' (s.add plugin path info call).registry := by
  unfold Plugin.Staged.add
  split
  · next hregister => exact register_grown hfree hr hcall hregister
  · exact .same hfree hr
  · exact .same hfree hr

/-- **A plugin's functions in turn.** -/
theorem addAll_grown (plugin path : String) {fs : List Plugin.ModuleFunction} {s : Plugin.Staged}
    (hfree : FreeFrom h s.nextId) (hr : KnowsRegistry h s.registry) (hfs : ∀ f ∈ fs, Gives (Knows h) f.call) :
    Grown h (s.addAll plugin path fs).1.nextId fun h' => KnowsRegistry h' (s.addAll plugin path fs).1.registry := by
  induction fs generalizing s h with
  | nil => exact .same hfree hr
  | cons f fs ih =>
    obtain ⟨hf, hrest⟩ := List.forall_mem_cons.1 hfs
    unfold Plugin.Staged.addAll
    split
    · exact .same hfree hr
    · exact (add_grown hfree hr plugin path _ hf).bind fun h' hgrows hfree' hr' =>
        ih hfree' hr' fun f' hf' => (hrest f' hf').mono fun v hv => hv.mono hgrows

/-- **Candidates.** One that fails or crashes gives its identities back, and nothing holds its functions. -/
theorem tryCandidate_grown {stock : Plugin.Stock} (hfree : FreeFrom h stock.nextId)
    (hr : KnowsRegistry h stock.registry) (path : String) {opening : Plugin.Opening}
    (hopening : Invariants.Lists (Gives (Knows h)) opening) :
    Grown h (Plugin.tryCandidate stock path opening).2.nextId fun h' =>
      KnowsRegistry h' (Plugin.tryCandidate stock path opening).2.registry := by
  unfold Plugin.tryCandidate
  split
  · exact .same hfree hr
  · exact .same hfree hr
  · next m =>
    unfold Plugin.tryModule
    split
    · exact .same hfree hr
    · exact .same hfree hr
    · next name fs _ hfs =>
      have hall := addAll_grown name path (s := ⟨stock.registry, stock.nextId, [], []⟩) hfree hr (hopening m fs rfl hfs)
      split
      · next staged hstaged =>
        rw [hstaged] at hall
        exact hall
      · exact .same hfree hr

theorem tryAll_grown {candidates : List (String × Plugin.Opening)} {stock : Plugin.Stock}
    (hfree : FreeFrom h stock.nextId) (hr : KnowsRegistry h stock.registry)
    (hcandidates : ∀ c ∈ candidates, Invariants.Lists (Gives (Knows h)) c.2) :
    Grown h (Plugin.tryAll stock candidates).2.nextId fun h' =>
      KnowsRegistry h' (Plugin.tryAll stock candidates).2.registry := by
  induction candidates generalizing stock h with
  | nil => exact .same hfree hr
  | cons c rest ih =>
    obtain ⟨hc, hrest⟩ := List.forall_mem_cons.1 hcandidates
    exact (tryCandidate_grown hfree hr c.1 hc).bind fun h' hgrows hfree' hr' =>
      ih hfree' hr' fun d hd m fs hm hfs f hf => (hrest d hd m fs hm hfs f hf).mono fun v hv => hv.mono hgrows

/-- **Loading plugins.** -/
theorem load_grown (enabled reportConflicts : Bool) {source : PluginSource} {roots : List String}
    {stock : Plugin.Stock} (hfree : FreeFrom h stock.nextId) (hr : KnowsRegistry h stock.registry)
    (hsource : ∀ c ∈ (source roots).candidates, Invariants.Lists (Gives (Knows h)) c.2) :
    Grown h (loadPlugins enabled reportConflicts source roots stock).stock.nextId fun h' =>
      KnowsRegistry h' (loadPlugins enabled reportConflicts source roots stock).stock.registry := by
  unfold loadPlugins
  split
  · exact tryAll_grown hfree hr hsource
  · exact .same hfree hr

theorem FreeFrom.mono {n m : Nat} (hfree : FreeFrom h n) (hle : n ≤ m) : FreeFrom h m :=
  fun id hid => hfree id (Nat.le_trans hle hid)

theorem withBuiltins_grown (bs : List Builtin) {r : Registry} {id : Nat} (hfree : FreeFrom h id)
    (hr : KnowsRegistry h r) : Grown h (id + bs.length) fun h' => KnowsRegistry h' (r.withBuiltins id bs) := by
  induction bs generalizing r id h with
  | nil => exact .same hfree hr
  | cons b bs ih =>
    have hfirst : Grown h (id + 1) fun h' => KnowsRegistry h' (r.withFunction b.info (.builtin b) id) := by
      unfold Registry.withFunction
      split
      · next hregister => exact register_grown hfree hr (fun v hv => by cases hv) hregister
      · exact .same (FreeFrom.mono hfree (Nat.le_succ id)) hr
    rw [List.length_cons, Nat.add_comm bs.length 1, ← Nat.add_assoc]
    exact hfirst.bind fun h' _ hfree' hr' => ih hfree' hr'

end Loading

/-! ## Identities and heaps -/

/-- Where the identities are distinct, a heap has the functions. -/
theorem Distinct.heap {R : Value → Prop} {n : Nat} (hd : Distinct R n) :
    ∃ h, FreeFrom h n ∧ ∀ v, R v → Knows h v := by
  -- an identity stands for any of the functions that bear it, which all have one name and one body
  have hentry : ∀ id, ∃ entry : Option Origin, (n ≤ id → entry = none) ∧
      ∀ v f, R v → Holds v (.function f) → f.id = id → entry = some (origin f) := by
    intro id
    by_cases hex : ∃ v f, R v ∧ Holds v (.function f) ∧ f.id = id
    · obtain ⟨v, f, hv, hf, rfl⟩ := hex
      refine ⟨some (origin f), fun hle => absurd (hd.spent v f hv hf) (Nat.not_lt.2 hle), fun w g hw hg hid => ?_⟩
      rw [hd.one w v g f hw hv hg hf hid]
    · exact ⟨none, fun _ => rfl, fun v f hv hf hid => absurd ⟨v, f, hv, hf, hid⟩ hex⟩
  choose h hfree hknows using hentry
  exact ⟨h, hfree, fun v hv f hf => hknows f.id v f hv hf rfl⟩

/-- Where a heap has the functions, the identities are distinct. -/
theorem distinct_of_heap {R : Value → Prop} {n : Nat} {h : Heap} (hfree : FreeFrom h n)
    (hknows : ∀ v, R v → Knows h v) : Distinct R n := by
  refine ⟨fun v f hv hf => ?_, fun v w f g hv hw hf hg hid => ?_⟩
  · by_contra hle
    have hsome := hknows v hv f hf
    rw [hfree f.id (Nat.not_lt.1 hle)] at hsome
    cases hsome
  · have hleft := hknows v hv f hf
    rw [hid, hknows w hw g hg] at hleft
    exact (Option.some.inj hleft).symm

theorem Stocked.heap {r : Registry} {n : Nat} (hr : Stocked r n) : ∃ h, FreeFrom h n ∧ KnowsRegistry h r := by
  obtain ⟨h, hfree, hknows⟩ := hr.distinct.heap
  exact ⟨h, hfree, hr.named, fun x f hf => hknows _ ⟨x, f, hf, rfl⟩⟩

theorem stocked_of_heap {r : Registry} {n : Nat} {h : Heap} (hfree : FreeFrom h n) (hr : KnowsRegistry h r) :
    Stocked r n := by
  refine ⟨hr.named, distinct_of_heap hfree ?_⟩
  rintro v ⟨x, f, hf, rfl⟩
  exact hr.knows x f hf

theorem KnowsRegistry.withConstant {h : Heap} {r : Registry} (hr : KnowsRegistry h r) (c : Constant) :
    KnowsRegistry h (r.withConstant c) := ⟨hr.named, hr.knows⟩

/-- **The standard registry.** -/
theorem standard_stocked (n : Nat) : Stocked (.standard n) (n + Registry.standardIdentities) := by
  have hempty : KnowsRegistry (fun _ => none) .empty := ⟨nofun, nofun⟩
  have hnothing : FreeFrom (fun _ => none) n := fun _ _ => rfl
  obtain ⟨h, -, hfree, hr⟩ := withBuiltins_grown Builtin.all hnothing hempty
  exact stocked_of_heap hfree ((hr.withConstant .pi).withConstant .e)

/-! ## Actions -/

section Actions

variable {h : Heap} {s : Session}

theorem Backed.root (hb : Backed h s) {v : Value} (hv : Root s v) : Knows h v := by
  cases hv with
  | bound hv => exact hb.tables _ _ _ hv
  | kept hv => exact hb.kept v hv
  | native hf => exact hb.registry.knows _ _ hf
  | base hf => exact hb.base.knows _ _ hf
  | cached hc => exact (hb.caches _ _ hc).graph
  | point hc hv => exact (hb.caches _ _ hc).points _ _ hv

theorem Backed.live (hb : Backed h s) {f : FunctionValue} (hf : Live s f) : h f.id = some (origin f) := by
  obtain ⟨v, hv, hholds⟩ := hf
  exact hb.root hv f hholds

theorem Backed.known (hb : Backed h s) {v : Value} (hv : Known s v) : Knows h v := by
  intro f hf
  obtain ⟨g, hg, hid, horigin⟩ := hv f hf
  rw [← hid, ← horigin]
  exact hb.live hg

/-- the heap can grow to back another session -/
def Backs (h : Heap) (s' : Session) : Prop := ∃ h', Grows h h' ∧ Backed h' s'

theorem Backed.backs (hb : Backed h s) : Backs h s := ⟨h, Grows.refl h, hb⟩

theorem pull_backed (hb : Backed h s) (t : Nat) (ex : Execution) (htable : ex.run.table = s.tables t)
    (hid : ex.run.nextId = s.engine.nextId) (hregistry : ex.registry = s.engine.registry) (limit : Option Nat) :
    Backs h (s.pull t ex limit) := by
  obtain ⟨h', hgrows, hfree, htable', hvalues⟩ :=
    pull_grown limit (hid ▸ hb.free) (htable ▸ hb.tables t) (hregistry ▸ hb.registry)
  exact ⟨h', hgrows, hfree, knowsTable_update hb.tables htable' hgrows, knows_kept hb.kept hvalues hgrows,
    hb.registry.mono hgrows, hb.base.mono hgrows, hb.caches.mono hgrows⟩

/-- The engine's executions start where the engine is. -/
theorem evaluate_start {e : Engine} {source : String} {table : Bindings Value} {ex : Execution}
    (h : e.evaluate source table = .ok ex) :
    ex.run.table = table ∧ ex.run.nextId = e.nextId ∧ ex.registry = e.registry := by
  obtain ⟨ts, -, rfl⟩ := Readers.map_eq_ok h
  exact ⟨rfl, rfl, rfl⟩

theorem evaluateDocument_start {e : Engine} {d d' : Document} {table : Bindings Value} {ex : Execution}
    (h : e.evaluateDocument d table = (.ok ex, d')) :
    ex.run.table = table ∧ ex.run.nextId = e.nextId ∧ ex.registry = e.registry := by
  obtain ⟨started, hstarted, rfl⟩ := Readers.map_eq_ok (congrArg Prod.fst h)
  obtain ⟨ts, -, rfl⟩ := Readers.map_eq_ok hstarted
  exact ⟨rfl, rfl, rfl⟩

/-- a session whose host has come by new values -/
theorem gained_backed (hb : Backed h s) {n : Nat} {vs : List Value}
    (hvs : Grown h n fun h' => ∀ v ∈ vs, Knows h' v) :
    Backs h { s with engine := { s.engine with nextId := n }, kept := s.kept ++ vs } := by
  obtain ⟨h', hgrows, hfree, hknows⟩ := hvs
  exact ⟨h', hgrows, hfree, fun t => (hb.tables t).mono hgrows, knows_kept hb.kept hknows hgrows,
    hb.registry.mono hgrows, hb.base.mono hgrows, hb.caches.mono hgrows⟩

/-- **One action.** -/
theorem act_backed (hb : Backed h s) {a : Action} (ha : a.Legal s) : Backs h (s.act a) := by
  cases a with
  | run t source policy limit =>
    simp only [Session.act]
    split
    · next ex hex =>
      obtain ⟨htable, hid, hregistry⟩ := evaluate_start hex
      exact pull_backed hb t (ex.withPolicy policy) htable hid hregistry limit
    · exact hb.backs
  | resume t tokens policy limit => exact pull_backed hb t _ rfl rfl rfl limit
  | edit text => exact ⟨h, Grows.refl h, hb.free, hb.tables, hb.kept, hb.registry, hb.base, hb.caches⟩
  | runDocument t policy limit =>
    have hdocument : ∀ d, Backed h { s with document := d } := fun d =>
      ⟨hb.free, hb.tables, hb.kept, hb.registry, hb.base, hb.caches⟩
    simp only [Session.act]
    split
    · next ex document hex =>
      obtain ⟨htable, hid, hregistry⟩ := evaluateDocument_start hex
      exact pull_backed (hdocument document) t (ex.withPolicy policy) htable hid hregistry limit
    · exact (hdocument _).backs
  | replace t bindings =>
    have hknows : KnowsTable h bindings := fun x v hv => hb.known (ha x v hv)
    exact ⟨h, Grows.refl h, hb.free, knowsTable_update hb.tables hknows (Grows.refl h), hb.kept, hb.registry, hb.base,
      hb.caches⟩
  | provide name arity native =>
    have hknows := knows_native hb.free (ha.mono fun v => hb.known) name arity
    exact gained_backed hb (.pushed hb.free fun v hv => List.mem_singleton.1 hv ▸ hknows)
  | call f args =>
    obtain ⟨hf, hargs⟩ := ha
    simp only [Session.act]
    split
    · next v id hcall =>
      have hvalue := call_fits hb.free (hb.known hf) (fun a ha => hb.known (hargs a ha)) hcall
      exact gained_backed hb (hvalue.mono fun h' _ hv w hw => List.mem_singleton.1 hw ▸ hv)
    · exact hb.backs
  | request r =>
    obtain ⟨h', hgrows, hfree, hcaches, hvalues⟩ :=
      serve_grown hb.free hb.caches (r := r) fun g hg => hb.known (ha g hg)
    obtain ⟨hregistry, hbase⟩ := serve_registry s.engine r
    refine ⟨h', hgrows, hfree, fun u => (hb.tables u).mono hgrows, knows_kept hb.kept hvalues hgrows, ?_, ?_, hcaches⟩
    · simp only [Session.act, hregistry]
      exact hb.registry.mono hgrows
    · simp only [Session.act, hbase]
      exact hb.base.mono hgrows
  | useCache g =>
    exact ⟨h, Grows.refl h, hb.free, hb.tables, hb.kept, hb.registry, hb.base,
      hb.caches.set (cacheFor_known hb.caches (hb.known ha)) g.id⟩
  | reload source =>
    -- the pass starts from the base registry; what was handed out before keeps the registry that it was made with
    have hfree : FreeFrom h (Plugin.Stock.mk s.engine.base s.engine.nextId).nextId := hb.free
    obtain ⟨h', hgrows, hfree', hregistry⟩ := load_grown s.engine.config.plugins.enabled
      s.engine.config.plugins.reportConflicts hfree hb.base
      (fun c hc m fs hm hfs f hf => (ha c hc m fs hm hfs f hf).mono fun v => hb.known)
    exact ⟨h', hgrows, hfree', fun u => (hb.tables u).mono hgrows, fun v hv => (hb.kept v hv).mono hgrows, hregistry,
      hb.base.mono hgrows, hb.caches.mono hgrows⟩
  | keep vs =>
    exact ⟨h, Grows.refl h, hb.free, hb.tables, fun v hv => hb.known (ha v hv), hb.registry, hb.base, hb.caches⟩

/-- **Any number of actions.** -/
theorem lived_backed (hs : Lived s) : ∃ h, Backed h s := by
  induction hs with
  | start hbase config roots =>
    obtain ⟨h, hfree, hr⟩ := hbase.heap
    exact ⟨h, hfree, fun _ => knowsTable_empty h, nofun, hr, hr, nofun⟩
  | act _ ha ih =>
    obtain ⟨h, hb⟩ := ih
    obtain ⟨h', -, hb'⟩ := act_backed hb ha
    exact ⟨h', hb'⟩

/-! ## Old and new identities -/

/-- **Equal identities**: the functions that a session can come to. -/
theorem lived_distinct (hs : Lived s) : Distinct (Root s) s.engine.nextId := by
  obtain ⟨h, hb⟩ := lived_backed hs
  exact distinct_of_heap hb.free fun v => hb.root

/-- The names in the engine's registry are as many as the identities. -/
theorem registered_once (hs : Lived s) {x y : String} {f g : FunctionValue}
    (hf : s.engine.registry.function? x = some f) (hg : s.engine.registry.function? y = some g) (hid : f.id = g.id) :
    x = y := by
  obtain ⟨h, hb⟩ := lived_backed hs
  have horigin := (lived_distinct hs).one _ _ f g (.native hf) (.native hg) Relation.ReflTransGen.refl
    Relation.ReflTransGen.refl hid
  have hname : f.name = g.name := congrArg Prod.fst horigin
  rw [hb.registry.named x f hf, hb.registry.named y g hg] at hname
  exact Option.some.inj hname

theorem begins_fits (hb : Backed h s) {st : State} (hbegins : Begins s st) : Fits h st := by
  cases hbegins with
  | expression t e => exact fits_eval hb.free (knowsScope_global (hb.tables t) hb.registry) e
  | call span hf hargs => exact fits_apply hb.free (hb.known hf) (fun a ha => hb.known (hargs a ha)) span

/-- **Lambdas.** Wherever an evaluation comes to, a lambda takes an identity that no function has, of those that the
session or the evaluation can come to. -/
theorem evaluation_fresh (hs : Lived s) {st₀ st : State} (hbegins : Begins s st₀) (hreaches : Reaches st₀ st)
    {f g : FunctionValue} (hg : Made st g) (hf : Live s f ∨ Found st f) : g.id ≠ f.id := by
  obtain ⟨h, hb⟩ := lived_backed hs
  obtain ⟨h', hgrows, hfits⟩ := reaches_fits (begins_fits hb hbegins) hreaches
  have hfresh : h' g.id = none := lambda_fresh hfits hg
  have hspent : h' f.id = some (origin f) := by
    rcases hf with hf | hf
    · exact hgrows _ _ (hb.live hf)
    · exact hfits.found hf
  intro hid
  rw [hid, hspent] at hfresh
  cases hfresh

/-- **Definitions** take an identity that no function has of those that the session can come to. -/
theorem definition_fresh (hs : Lived s) {f : FunctionValue} (hf : Live s f) : s.engine.nextId ≠ f.id := by
  obtain ⟨v, hv, hholds⟩ := hf
  exact Nat.ne_of_gt ((lived_distinct hs).spent v f hv hholds)

end Actions

/-! ## Main result -/

theorem same_iff {f g : FunctionValue} : Value.same (.function f) (.function g) = true ↔ f.id = g.id := beq_iff_eq

theorem same_false {f g : FunctionValue} (hne : f.id ≠ g.id) : Value.same (.function f) (.function g) = false :=
  beq_false_of_ne hne

/-- Equality of functions is that of their identities. -/
theorem same_equivalence : Equivalence fun f g => Value.same (.function f) (.function g) = true where
  refl _ := same_iff.2 rfl
  symm h := same_iff.2 (same_iff.1 h).symm
  trans h h' := same_iff.2 ((same_iff.1 h).trans (same_iff.1 h'))

/-- **Function identity is sound in every session.** Sessions can start from the standard registry. In any session:
- two functions that it can come to are equal only if they have one name and one body, which is all that a call looks
  at: the parameters, the expression, the captured bindings and the registry of a closure, or the arity and the code of
  a native function. Two names of the registry never have equal functions;
- a lambda, wherever an evaluation comes to it, makes a function that is unequal to all that the session can come to,
  and to all that the evaluation can come to there. It does not matter how the evaluation ends;
- a definition makes a function that is unequal to all that the session can come to, such as the one that the name had
  before, even of the same text.
The machine of which this is said follows the evaluator, in expressions and in calls. A sweep comes down to calls at
points of its range, whatever the order of its steps, and without a schedule it is its points in turn. No step of the
machine makes a function but that of a lambda, and none changes one. Assigning binds the value itself, a parameter
is its argument, a captured name means what it meant, the registry gives its functions, and plotting keeps the function.
Equality of functions is an equivalence relation. -/
theorem identities_sound :
    (∀ n, Stocked (.standard n) (n + Registry.standardIdentities)) ∧
    (∀ s, Lived s →
      (∀ f g, Live s f → Live s g → Value.same (.function f) (.function g) = true →
        f.name = g.name ∧ f.body = g.body) ∧
      (∀ x y f g, s.engine.registry.function? x = some f → s.engine.registry.function? y = some g →
        Value.same (.function f) (.function g) = true → x = y) ∧
      (∀ st₀ st scope span params body, Begins s st₀ → Reaches st₀ st →
        st.control = .eval scope (.lambda span params body) → ∃ g,
          g.body = .script ⟨params, body, scope.captured, scope.registry⟩ ∧
          st.step = some { st with control := .value (.function g), nextId := st.nextId + 1 } ∧
          ∀ f, Live s f ∨ Found st f → Value.same (.function g) (.function f) = false) ∧
      (∀ t x params body, ∃ g,
        (StatementKind.define x params body).execute s.engine.registry (s.tables t) s.engine.nextId =
          .ok ((.unit, (s.tables t).set x (.function g)), s.engine.nextId + 1) ∧
        g.body = .script ⟨params, body, s.tables t, s.engine.registry⟩ ∧
        ∀ f, Live s f → Value.same (.function g) (.function f) = false)) ∧
    (∀ scope e id, Leads (State.start scope e 0 id) [] 0 (evaluate (callClosure maxCalls) scope e id) .value) ∧
    (∀ span (f : FunctionValue) args id,
      Leads ⟨.apply span f args, [], 0, id⟩ [] 0 (Eval.located span (f.call args) id) .value) ∧
    (∀ (e : Engine) g range, (e.sample g range []).2 = (Transparency.serveAll (e.cacheOf g).2
      ((g.resolveRange range e.config.sampling.defaultRange).points.map (.point g))).2) ∧
    (∀ (e : Engine) g range schedule, ∃ called, ∃ c : SampleCache,
      (∀ x ∈ called, x ∈ (g.resolveRange range e.config.sampling.defaultRange).points) ∧
      (e.sample g range schedule).2 =
        { e with
          caches := e.caches.set g.id c
          nextId := counted (e.caches.cacheFor g).graph called e.nextId } ∧
      c.graph = (e.caches.cacheFor g).graph ∧
      ∀ (bits : UInt64) v, c.points[bits]? = some v →
        (e.caches.cacheFor g).points[bits]? = some v ∨ Called (e.caches.cacheFor g).graph called e.nextId v) ∧
    (∀ st st' f, st.step = some st' → Found st' f → Found st f ∨ Made st f) ∧
    (∀ registry table x e v id id', evaluate (callClosure maxCalls) (.global table registry) e id = .ok (v, id') →
      (StatementKind.assign x e).execute registry table id = .ok ((.unit, table.set x v), id') ∧
        (table.set x v).get? x = some v) ∧
    (∀ (params : List String) (args : List Value) (i : Nat) (x : String) (v : Value) (table : Bindings Value)
      (registry : Registry), params.Nodup → params[i]? = some x → args[i]? = some v →
      Scope.lookup ⟨params, args, table, registry⟩ x = .ok v) ∧
    (∀ scope : Scope, scope.params.Nodup → ∀ x, scope.captured.get? x = scope.local? x) ∧
    (∀ (scope : Scope) x f, scope.local? x = none → scope.registry.function? x = some f → scope.callee x = .ok f ∧
      (scope.registry.constant? x = none → scope.lookup x = .ok (.function f))) ∧
    (∀ args w, Builtin.plot.call args = .ok w →
      ∃ v rest f range, args = v :: rest ∧ v.function? = some f ∧ w = .graph ⟨f, range⟩) ∧
    Equivalence fun f g => Value.same (.function f) (.function g) = true := by
  refine ⟨standard_stocked, fun s hs => ⟨?_, ?_, ?_, ?_⟩, ?_, leads_call, sample_points, sample_called,
    fun st st' f hs hf => step_found hs hf, ?_, ?_, fun scope hnodup => captured_eq_local hnodup,
    fun scope x f hlocal hf => lookup_registered hlocal hf, fun args w => plot_keeps, same_equivalence⟩
  · rintro f g ⟨v, hv, hf⟩ ⟨w, hw, hg⟩ hsame
    have horigin := (lived_distinct hs).one v w f g hv hw hf hg (same_iff.1 hsame)
    exact ⟨congrArg Prod.fst horigin, congrArg Prod.snd horigin⟩
  · exact fun x y f g hf hg hsame => registered_once hs hf hg (same_iff.1 hsame)
  · intro st₀ st scope span params body hbegins hreaches hcontrol
    have hmade := Made.lambda hcontrol
    exact ⟨_, rfl, (made_step hmade).1, fun f hf => same_false (evaluation_fresh hs hbegins hreaches hmade hf)⟩
  · intro t x params body
    exact ⟨⟨some x, s.engine.nextId, .script ⟨params, body, s.tables t, s.engine.registry⟩, none⟩, rfl, rfl,
      fun f hf => same_false (definition_fresh hs hf)⟩
  · exact fun scope e id => leads_evaluate scope e [] 0 id (Nat.zero_le maxCalls)
  · intro registry table x e v id id' hv
    have hexecute := execute_assign registry table id x e
    rw [show valueOf registry table id e = .ok (v, id') from hv] at hexecute
    refine ⟨hexecute, ?_⟩
    rw [Bindings.get?_set, if_pos rfl]
  · exact fun params args i x v table registry hnodup hx hv => parameter_eq_argument hnodup hx hv table registry

end CurveScript.Sessions
