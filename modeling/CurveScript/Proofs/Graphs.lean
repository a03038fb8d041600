/-
Graphs that come out of a script can be sampled.

A graph is sampled by calling its function with one number at each point of a range. So its function has to take one
argument, and a range of its own has to be one that is admitted. Plotting checks both, nothing else makes a graph, and
what is reached from a value can only be passed on.

Results:
- `invoke_eq`: sampling a graph whose function takes one argument is running what its function does; the number of
  arguments is not in the way.
- `range_admissible`: what admitting a range means for its bounds and its step.
- `native_sound`: plotting makes a graph of a function that takes one argument, with an admitted range or none, also
  where it is given a graph or a function of many arguments; other native functions make no graph.
- `soundness`: evaluation passes it on that all graphs can be sampled. Runs follow by `execute_keeps` and `take_keeps`.
- `scripts_samplable`: the outputs and the table of a run, and all that is reached from them.
Witness: `sketch_samplable`, a script that plots a plot, a variadic function, and functions that it may not plot.
-/
import CurveScript.Proofs.Identities

namespace CurveScript.Graphs

open CurveScript.Finiteness CurveScript.Identities CurveScript.Invariants CurveScript.Numbers CurveScript.Preservation

/-! ## Sampling -/

/-- a graph whose function takes one argument, and whose own range, if any, is admitted -/
structure Samplable (g : Graph) : Prop where
  arity : g.function.arity.accepts 1 = true
  range : ∀ r, g.ownRange = some r → SampleRange.make? r.start r.stop r.step = some r

/-- what a function does with arguments, however many it takes -/
def act (body : Body) (args : List Value) : Eval EvalError Value :=
  match body with
  | .script c => callClosure maxCalls c args
  | .native _ call => Eval.lift (call.call args)

/-- **Sampling** a graph whose function takes one argument is running what the function does. -/
theorem invoke_eq {g : Graph} (hone : g.function.arity.accepts 1 = true) (x : Float) :
    g.invoke x = act g.function.body [.float x] := by
  rw [Graph.invoke, FunctionValue.call, FunctionValue.callWith_eq, if_pos (by exact hone)]
  rfl

/-- A range is admitted for its bounds and its step, and kept as it is. -/
theorem make?_eq_some {low high step : Float} {r : SampleRange} (h : SampleRange.make? low high step = some r) :
    r = ⟨low, high, step⟩ ∧ SampleRange.admissible low high step = true := by
  unfold SampleRange.make? at h
  split at h
  · next hadmissible =>
    cases h
    exact ⟨rfl, hadmissible⟩
  · cases h

/-- **Admitted ranges** have finite bounds in order and a positive step, and fewer steps than the point limit. -/
theorem range_admissible {r : SampleRange} (h : SampleRange.make? r.start r.stop r.step = some r) :
    r.start.isFinite = true ∧ r.stop.isFinite = true ∧ r.step.isFinite = true ∧ r.start ≤ r.stop ∧ 0.0 < r.step ∧
      (r.stop - r.start) / r.step < Float.ofNat SampleRange.pointLimit := by
  obtain ⟨-, hadmissible⟩ := make?_eq_some h
  simp only [SampleRange.admissible, Bool.and_eq_true, decide_eq_true_eq] at hadmissible
  obtain ⟨⟨⟨⟨⟨hstart, hstop⟩, hstep⟩, horder⟩, hpositive⟩, hcount⟩ := hadmissible
  exact ⟨hstart, hstop, hstep, horder, hpositive, hcount⟩

/-! ## Values whose graphs can be sampled -/

/-- every graph that is reached from the value can be sampled -/
def Sound (v : Value) : Prop := ∀ g, Holds v (.graph g) → Samplable g

/-- every graph that is reached from a binding can be sampled -/
def TableSound (t : Bindings Value) : Prop := ∀ x v, t.get? x = some v → Sound v

section Sound

variable {v w : Value}

theorem Sound.of_holds (h : Sound v) (hw : Holds v w) : Sound w :=
  fun g hg => h g (Relation.ReflTransGen.trans hw hg)

theorem Sound.part (h : Sound v) (hw : Part v w) : Sound w := h.of_holds (Relation.ReflTransGen.single hw)

theorem sound_of_parts (hself : ∀ g, v = .graph g → Samplable g) (hparts : ∀ w, Part v w → Sound w) : Sound v := by
  intro g hg
  rcases Relation.ReflTransGen.cases_head hg with heq | ⟨w, hw, hrest⟩
  · exact hself g heq
  · exact hparts w hw g hrest

theorem sound_plain (h : Plain v) : Sound v := by
  refine sound_of_parts (fun g hg => ?_) fun w hw => absurd hw (plain_part h w)
  rw [hg] at h
  cases h

theorem sound_bare {f : FunctionValue} (h : Bare f) : Sound (.function f) :=
  sound_of_parts nofun fun w hw => absurd hw (bare_part h w)

/-- The function of a sound value is sound. -/
theorem sound_function {f : FunctionValue} (h : Sound v) (hf : v.function? = some f) : Sound (.function f) :=
  h.of_holds (holds_of_function? hf)

/-- A graph that can be sampled is sound if its function is. -/
theorem sound_graph {g : Graph} (hg : Samplable g) (hf : Sound (.function g.function)) : Sound (.graph g) := by
  refine sound_of_parts (fun g' hg' => ?_) fun w hw => ?_
  · cases hg'
    exact hg
  · cases hw with
    | plotted => exact hf
    | graphRange => exact sound_plain rfl

end Sound

/-! ## Native functions -/

/-- A graph of a function that takes one argument can be sampled in an admitted range. -/
theorem samplable_admitted {f : FunctionValue} {range : Option SampleRange} (hone : f.arity.accepts 1 = true)
    (hrange : Admitted range) : Samplable ⟨f, range⟩ := by
  refine ⟨hone, fun r hr => ?_⟩
  obtain ⟨low, high, step, hmade⟩ := hrange r hr
  obtain ⟨rfl, -⟩ := make?_eq_some hmade
  exact hmade

/-- **Native functions** on arguments whose graphs can be sampled. -/
theorem native_sound {f : FunctionValue} {arity : Arity} {call : NativeCall} (hf : Sound (.function f))
    (hbody : f.body = .native arity call) {args : List Value} (hargs : ∀ v ∈ args, Sound v) :
    Yields Sound (call.call args) := by
  intro w hw
  cases native_given hw with
  | number h => exact sound_plain (plain_number h)
  | unit => exact sound_plain rfl
  | argument h => exact hargs w h
  | graph hv hplotted hone hrange =>
    exact sound_graph (samplable_admitted hone hrange) (sound_function (hargs _ hv) hplotted)
  | own h => exact hf.part (.own hbody h)

/-! ## Scopes -/

/-- every graph that is reached from a scope can be sampled -/
def ScopeSound (s : Scope) : Prop := ∀ v, ScopeHas s v → Sound v

section Scopes

variable {s : Scope}

theorem lookup_sound (hs : ScopeSound s) (x : String) : Yields Sound (s.lookup x) := by
  intro v hv
  rcases lookup_gives hv with hplain | hhas
  · exact sound_plain hplain
  · exact hs v hhas

theorem callee_sound (hs : ScopeSound s) (x : String) : Yields (fun f => Sound (.function f)) (s.callee x) := by
  intro f hf
  obtain ⟨w, hhas, hholds⟩ := callee_gives hf
  exact (hs w hhas).of_holds hholds

/-- The body of a function sees its arguments, what was captured, and the functions of its registry. -/
theorem body_sound {f : FunctionValue} {c : Closure} (hf : Sound (.function f)) (hbody : f.body = .script c)
    {args : List Value} (hargs : ∀ v ∈ args, Sound v) : ScopeSound ⟨c.params, args, c.captured, c.registry⟩ := by
  intro v hv
  cases hv with
  | arg h => exact hargs v h
  | bound h => exact hf.part (.captured hbody h)
  | native h => exact hf.part (.native hbody h)

/-- A function holds what was in the scope where it was made. -/
theorem made_sound (hs : ScopeSound s) (name : Option String) (id : Nat) (params : List String) (body : Expr) :
    Sound (.function ⟨name, id, .script ⟨params, body, s.captured, s.registry⟩, none⟩) := by
  refine sound_of_parts nofun fun w hw => ?_
  rcases made_part hw with hplain | hhas
  · exact sound_plain hplain
  · exact hs w hhas

end Scopes

/-- **Evaluation passes it on** that all graphs can be sampled, whatever the expression. -/
def soundness : Trait where
  value := Sound
  scope := ScopeSound
  expression _ := True
  child _ _ := trivial
  integer _ := sound_plain rfl
  float _ := sound_plain rfl
  unit := sound_plain rfl
  unary op v _ w hw := sound_plain (unary_plain op v w hw)
  binary op v w u hu := sound_plain (plain_number (binary_number op v w u hu))
  lookup := lookup_sound
  callee := callee_sound
  callable hv _ hf := sound_function hv (callable_eq_ok hf)
  native hf hbody hargs := native_sound hf hbody hargs
  body hf hbody hargs := ⟨body_sound hf hbody hargs, trivial⟩
  made name id params body hs _ := made_sound hs name id params body

/-! ## Main result -/

/-- A scope outside of functions has the bindings of its table and the functions of its registry, which are bare. -/
theorem global_sound {registry : Registry} (hregistry : Furnished registry) {t : Bindings Value} (ht : TableSound t) :
    ScopeSound (.global t registry) := by
  intro v hv
  cases hv with
  | arg h => cases h
  | bound h => exact ht _ v h
  | native h => exact sound_bare ((furnished_stocked hregistry).functions _ _ h)

/-- the value is an output of the steps, or bound in the table -/
def Emitted (steps : List Step) (t : Bindings Value) (v : Value) : Prop :=
  (∃ s ∈ steps, s.output = .ok v) ∨ ∃ x, t.get? x = some v

/-- **Graphs that come out of a script can be sampled.** Any number of statements leaves a table all of whose graphs
can be sampled, if those in the table at the start could. Let a graph be reached from an output of the statements or
from that table, through captured tables or otherwise. Then its function takes one argument, so sampling it never fails
for the number of arguments, and a range of its own is one that is admitted, with finite bounds in order, a positive
step, and fewer steps than the point limit. -/
theorem scripts_samplable {registry : Registry} {table : Bindings Value} (hregistry : Furnished registry)
    (htable : TableSound table) (tokens : List Token) (policy : ErrorPolicy) (id n : Nat) :
    let run := (Run.start tokens table id).take registry policy n
    TableSound run.2.1.table ∧ ∀ v, Emitted run.1 run.2.1.table v → ∀ g, Holds v (.graph g) →
      g.function.arity.accepts 1 = true ∧ (∀ x, g.invoke x = act g.function.body [.float x]) ∧
      ∀ r, g.ownRange = some r → SampleRange.make? r.start r.stop r.step = some r ∧
        r.start.isFinite = true ∧ r.stop.isFinite = true ∧ r.step.isFinite = true ∧ r.start ≤ r.stop ∧
        0.0 < r.step ∧ (r.stop - r.start) / r.step < Float.ofNat SampleRange.pointLimit := by
  intro run
  have hkeep : StatementsKeep registry (fun _ => True) TableSound Sound :=
    soundness.execute_keeps (fun _ _ => trivial) fun _ ht => global_sound hregistry ht
  have hstart : RunHas (fun _ => True) TableSound (.start tokens table id) := ⟨fun _ _ => trivial, htable⟩
  obtain ⟨houtputs, hlast⟩ : (∀ s ∈ run.1, ∀ v, s.output = .ok v → Sound v) ∧ RunHas _ TableSound run.2.1 :=
    take_keeps hkeep n hstart
  refine ⟨hlast.table, fun v hv g hg => ?_⟩
  have hsound : Sound v := by
    rcases hv with ⟨s, hs, hv⟩ | ⟨x, hv⟩
    · exact houtputs s hs v hv
    · exact hlast.table x v hv
  have hgraph : Samplable g := hsound g hg
  exact ⟨hgraph.arity, fun x => invoke_eq hgraph.arity x, fun r hr =>
    ⟨hgraph.range r hr, range_admissible (hgraph.range r hr)⟩⟩

/-! ## Witness: a sketch -/

/-- a table that has a graph from the start -/
def seeded : Bindings Value :=
  Bindings.empty.set "m" (.graph ⟨⟨some "min", 9, .native (.atLeast 1) (.builtin .min), none⟩, some ⟨0.0, 1.0, 0.5⟩⟩)

theorem seeded_sound : TableSound seeded := by
  intro x v hv
  rw [seeded, Bindings.get?_set] at hv
  split at hv
  · cases hv
    refine sound_graph ⟨rfl, fun r hr => ?_⟩ (sound_bare (.native fun _ hcall => by cases hcall))
    cases hr
    have hmade : (SampleRange.make? 0.0 1.0 0.5).isSome = true := by decide +kernel
    obtain ⟨r, hr⟩ := Option.isSome_iff_exists.1 hmade
    obtain ⟨rfl, -⟩ := make?_eq_some hr
    exact hr
  · cases hv

/-- plots of a plot, of functions of many arguments, of a function of two and of one over an interval that is none, and
a function that captures a graph -/
def sketch : String :=
  "f(x) = 2 * x\nplot(plot(f, 0, 1), 0, 2, 0.5)\nplot(max)\nplot(pow)\nplot(f, 1, 0)\ng = plot(m)\nh(x) = g(x)\nh(3)"

/-- the tokens of the script -/
def sketchTokens : List Token :=
  match Token.tokenize sketch with
  | .ok ts => ts
  | .error _ => []

/-- the graph under a name in what a function of the table captured -/
def capturedGraph? (t : Bindings Value) (function name : String) : Option Graph :=
  match t.get? function with
  | some (.function ⟨_, _, .script c, _⟩) => (c.captured.get? name).bind Value.graph?
  | _ => none

theorem holds_of_capturedGraph? {t : Bindings Value} {function name : String} {g : Graph}
    (h : capturedGraph? t function name = some g) : ∃ v, t.get? function = some v ∧ Holds v (.graph g) := by
  unfold capturedGraph? at h
  split at h
  · next f id c range hget =>
    obtain ⟨w, hw, hg⟩ := Option.bind_eq_some_iff.1 h
    have hcaptured : Part (.function ⟨f, id, .script c, range⟩) w := .captured rfl hw
    cases w with
    | graph g' =>
      cases hg
      exact ⟨_, hget, Relation.ReflTransGen.single hcaptured⟩
    | _ => cases hg
  · cases h

/-- Two plots are refused. The graphs that the other statements give can be sampled, and so can the one that a function
captured. -/
theorem sketch_samplable :
    Furnished furnished ∧ TableSound seeded ∧
      ((Run.start sketchTokens seeded 19).take furnished .goOn 9).1.map (fun s => s.output.isOk) =
        [true, true, true, false, false, true, true, true] ∧
      TableSound ((Run.start sketchTokens seeded 19).take furnished .goOn 9).2.1.table ∧
      ∃ g, capturedGraph? ((Run.start sketchTokens seeded 19).take furnished .goOn 9).2.1.table "h" "g" = some g ∧
        g.function.arity.accepts 1 = true ∧ ∀ x, g.invoke x = act g.function.body [.float x] := by
  obtain ⟨houtputs, hcaptures⟩ : ((Run.start sketchTokens seeded 19).take furnished .goOn 9).1.map
      (fun s => s.output.isOk) = [true, true, true, false, false, true, true, true] ∧
      (capturedGraph? ((Run.start sketchTokens seeded 19).take furnished .goOn 9).2.1.table "h" "g").isSome = true := by
    decide +kernel
  obtain ⟨htable, hgraphs⟩ := scripts_samplable furnished_furnished seeded_sound sketchTokens .goOn 19 9
  obtain ⟨g, hg⟩ := Option.isSome_iff_exists.1 hcaptures
  obtain ⟨v, hv, hholds⟩ := holds_of_capturedGraph? hg
  obtain ⟨hone, hinvoke, -⟩ := hgraphs v (Or.inr ⟨"h", hv⟩) g hholds
  exact ⟨furnished_furnished, seeded_sound, houtputs, htable, g, hg, hone, hinvoke⟩

end CurveScript.Graphs
