/-
Calling a script function is evaluating its body where the parameters are bound.

A body sees its arguments beside the table that the function captured, and a name is looked up among the parameters
first. A function that is made there captures one table, into which the parameters are written. Two scopes agree if
every name means the same in both and a function that is made there captures the same; a scope with parameters agrees
with the table that has them written into it.

Results:
- `evaluate_agree`: an expression has the same outcome in scopes that agree, however closures are called.
- `step_agree`, `after_agree`: two evaluations in such scopes go step by step through states that agree.
- `made_agree`: they make the same functions, with the same captured bindings, at the same steps.
- `nested_names`: at any nesting of closures a name means the innermost parameter of its name, or else a variable, or
  else what the registry has for it.
- `calls_bind`: scopes with parameters, and calls.
Witness: `inner_binds`, a body that makes a function of its own, with a parameter and a variable of one name.
-/
import CurveScript.Proofs.Identities

namespace CurveScript.Shadowing

open CurveScript.CallStack CurveScript.Identities

/-! ## Scopes that agree -/

/-- Every name means the same, and a function that is made here captures the same. -/
structure Agree (s s' : Scope) : Prop where
  names : ∀ x, s.local? x = s'.local? x
  captured : s.captured = s'.captured
  registry : s.registry = s'.registry

section Agree

variable {s s' : Scope}

theorem Agree.refl (s : Scope) : Agree s s := ⟨fun _ => rfl, rfl, rfl⟩

theorem Agree.symm (h : Agree s s') : Agree s' s := ⟨fun x => (h.names x).symm, h.captured.symm, h.registry.symm⟩

theorem lookup_agree (h : Agree s s') (x : String) : s.lookup x = s'.lookup x := by
  unfold Scope.lookup
  rw [h.names, h.registry]

theorem callee_agree (h : Agree s s') (x : String) : s.callee x = s'.callee x := by
  unfold Scope.callee
  rw [h.names, h.registry]

theorem makeFunction_agree {ε : Type} (h : Agree s s') (name : Option String) (params : List String) (body : Expr) :
    s.makeFunction (ε := ε) name params body = s'.makeFunction name params body := by
  unfold Scope.makeFunction
  rw [h.captured, h.registry]

mutual

/-- **Expressions** have the same outcome in scopes that agree. -/
theorem evaluate_agree (h : Agree s s') (invoke : Invoke) : ∀ e : Expr, evaluate invoke s e = evaluate invoke s' e
  | .integer _ _ | .float _ _ => by simp only [evaluate]
  | .var _ name => by simp only [evaluate, lookup_agree h name]
  | .unary _ _ e => by simp only [evaluate, evaluate_agree h invoke e]
  | .binary _ _ l r => by simp only [evaluate, evaluate_agree h invoke l, evaluate_agree h invoke r]
  | .call span callee args => by
    rcases callee_cases callee with ⟨at_, name, rfl⟩ | hother
    · simp only [evaluate, callee_agree h name, evaluateAll_agree h invoke args]
    · rw [evaluate_call invoke s span args hother, evaluate_call invoke s' span args hother,
        evaluate_agree h invoke callee, evaluateAll_agree h invoke args]
  | .lambda _ params body => by simp only [evaluate, makeFunction_agree h none params body]

theorem evaluateAll_agree (h : Agree s s') (invoke : Invoke) :
    ∀ es : List Expr, evaluateAll invoke s es = evaluateAll invoke s' es
  | [] => by simp only [evaluateAll]
  | e :: es => by simp only [evaluateAll, evaluate_agree h invoke e, evaluateAll_agree h invoke es]

end

end Agree

/-! ## Evaluations side by side -/

/-- the same is done now, in scopes that agree -/
inductive ControlsAgree : Control → Control → Prop where
  | eval {s s' : Scope} (h : Agree s s') (e : Expr) : ControlsAgree (.eval s e) (.eval s' e)
  | collect {s s' : Scope} (h : Agree s s') (span : Span) (f : FunctionValue) (known : List Value) (args : List Expr) :
      ControlsAgree (.collect s span f known args) (.collect s' span f known args)
  | apply (span : Span) (f : FunctionValue) (args : List Value) : ControlsAgree (.apply span f args) (.apply span f args)
  | value (v : Value) : ControlsAgree (.value v) (.value v)
  | failure (f : Failure) : ControlsAgree (.failure f) (.failure f)

/-- the same waits, in scopes that agree -/
inductive FramesAgree : Frame → Frame → Prop where
  | unary (span : Span) (op : UnaryOperator) : FramesAgree (.unary span op) (.unary span op)
  | left {s s' : Scope} (h : Agree s s') (span : Span) (op : BinaryOperator) (rhs : Expr) :
      FramesAgree (.left s span op rhs) (.left s' span op rhs)
  | right (span : Span) (op : BinaryOperator) (lhs : Value) : FramesAgree (.right span op lhs) (.right span op lhs)
  | callee {s s' : Scope} (h : Agree s s') (span at_ : Span) (args : List Expr) :
      FramesAgree (.callee s span at_ args) (.callee s' span at_ args)
  | argument {s s' : Scope} (h : Agree s s') (span : Span) (f : FunctionValue) (known : List Value)
      (args : List Expr) : FramesAgree (.argument s span f known args) (.argument s' span f known args)
  | body (span : Span) : FramesAgree (.body span) (.body span)

/-- evaluations that do the same, with the same waiting -/
structure StatesAgree (st st' : State) : Prop where
  control : ControlsAgree st.control st'.control
  frames : List.Forall₂ FramesAgree st.frames st'.frames
  active : st.active = st'.active
  nextId : st.nextId = st'.nextId

section States

variable {st st' : State}

theorem settle_agree (span : Span) (r : Except EvalError Value) : ControlsAgree (settle span r) (settle span r) := by
  cases r with
  | ok v => exact .value v
  | error e => exact .failure _

/-- The step into an expression. -/
theorem enter_agree (h : StatesAgree st st') {s s' : Scope} (hs : Agree s s') (e : Expr) :
    StatesAgree (st.enter s e) (st'.enter s' e) := by
  obtain ⟨-, hframes, hactive, hid⟩ := h
  cases e with
  | integer span n => exact ⟨.value _, hframes, hactive, hid⟩
  | float span x => exact ⟨.value _, hframes, hactive, hid⟩
  | var span name =>
    refine ⟨?_, hframes, hactive, hid⟩
    simp only [State.enter, lookup_agree hs name]
    exact settle_agree span _
  | unary span op e => exact ⟨.eval hs e, .cons (.unary span op) hframes, hactive, hid⟩
  | binary span op l r => exact ⟨.eval hs l, .cons (.left hs span op r) hframes, hactive, hid⟩
  | call span callee args =>
    cases callee with
    | var at_ name =>
      simp only [State.enter, callee_agree hs name]
      cases s'.callee name with
      | ok f => exact ⟨.collect hs span f [] args, hframes, hactive, hid⟩
      | error e => exact ⟨.failure _, hframes, hactive, hid⟩
    | _ => exact ⟨.eval hs _, .cons (.callee hs span _ args) hframes, hactive, hid⟩
  | lambda span params body =>
    refine ⟨?_, hframes, hactive, congrArg (· + 1) hid⟩
    simp only [State.enter, hs.captured, hs.registry, hid]
    exact .value _

/-- The step into a call: the scope of a body is the function's, and the function is the same. -/
theorem call_agree (h : StatesAgree st st') (span : Span) (f : FunctionValue) (args : List Value) :
    StatesAgree (st.call span f args) (st'.call span f args) := by
  obtain ⟨-, hframes, hactive, hid⟩ := h
  unfold State.call
  split
  · split
    · exact ⟨settle_agree span _, hframes, hactive, hid⟩
    · rw [hactive]
      split
      · exact ⟨.eval (Agree.refl _) _, .cons (.body span) hframes, rfl, hid⟩
      · exact ⟨.failure _, hframes, rfl, hid⟩
  · exact ⟨.failure _, hframes, hactive, hid⟩

/-- The step that gives a value to what waits for it. -/
theorem give_agree (h : StatesAgree st st') (v : Value) {frame frame' : Frame} {fs fs' : List Frame}
    (hframe : FramesAgree frame frame') (hfs : List.Forall₂ FramesAgree fs fs') :
    StatesAgree (st.give v fs frame) (st'.give v fs' frame') := by
  obtain ⟨hcontrol, -, hactive, hid⟩ := h
  cases hframe with
  | unary span op => exact ⟨settle_agree span _, hfs, hactive, hid⟩
  | left hs span op rhs => exact ⟨.eval hs rhs, .cons (.right span op v) hfs, hactive, hid⟩
  | right span op lhs => exact ⟨settle_agree span _, hfs, hactive, hid⟩
  | callee hs span at_ args =>
    unfold State.give
    cases Scope.callable v with
    | ok f => exact ⟨.collect hs span f [] args, hfs, hactive, hid⟩
    | error e => exact ⟨.failure _, hfs, hactive, hid⟩
  | argument hs span f known args => exact ⟨.collect hs span f (known ++ [v]) args, hfs, hactive, hid⟩
  | body span => exact ⟨hcontrol, hfs, congrArg (· - 1) hactive, hid⟩

/-- The step that takes an error out of what waits. -/
theorem unwind_agree (h : StatesAgree st st') (f : Failure) {frame frame' : Frame} {fs fs' : List Frame}
    (hframe : FramesAgree frame frame') (hfs : List.Forall₂ FramesAgree fs fs') :
    StatesAgree (st.unwind f fs frame) (st'.unwind f fs' frame') := by
  obtain ⟨hcontrol, -, hactive, hid⟩ := h
  cases hframe with
  | body span => exact ⟨.failure _, hfs, congrArg (· - 1) hactive, hid⟩
  | _ => exact ⟨hcontrol, hfs, hactive, hid⟩

/-- **One step** of two evaluations that agree: both stop, or they agree again. -/
theorem step_agree (h : StatesAgree st st') : Option.Rel StatesAgree st.step st'.step := by
  have hagree := h
  -- the same kind of step in both, by what is done now
  obtain ⟨control, frames, active, id⟩ := st
  obtain ⟨control', frames', active', id'⟩ := st'
  obtain ⟨hcontrol, hframes, hactive, hid⟩ := hagree
  cases hcontrol with
  | eval hs e => exact .some (enter_agree h hs e)
  | collect hs span f known args =>
    cases args with
    | nil => exact .some ⟨.apply span f known, hframes, hactive, hid⟩
    | cons e es => exact .some ⟨.eval hs e, .cons (.argument hs span f known es) hframes, hactive, hid⟩
  | apply span f args => exact .some (call_agree h span f args)
  | value v =>
    cases hframes with
    | nil => exact .none
    | cons hframe hfs => exact .some (give_agree h v hframe hfs)
  | failure f =>
    cases hframes with
    | nil => exact .none
    | cons hframe hfs => exact .some (unwind_agree h f hframe hfs)

/-- **Any number of steps.** -/
theorem after_agree (h : StatesAgree st st') (k : Nat) : StatesAgree (st.after k) (st'.after k) := by
  induction k generalizing st st' with
  | zero => exact h
  | succ k ih =>
    have hstep := step_agree h
    unfold State.after
    generalize st.step = next at hstep ⊢
    generalize st'.step = next' at hstep ⊢
    cases hstep with
    | none => exact h
    | some hnext => exact ih hnext

/-- The function that the next step makes is the same, with all that it captures. -/
theorem made_agree (h : StatesAgree st st') {f : FunctionValue} (hf : Made st f) : Made st' f := by
  obtain ⟨hc⟩ := hf
  obtain ⟨hcontrol, -, -, hid⟩ := h
  rw [hc] at hcontrol
  generalize hc' : st'.control = control' at hcontrol
  cases hcontrol with
  | eval hs e =>
    rw [hs.captured, hs.registry, hid]
    exact .lambda hc'

theorem start_agree {s s' : Scope} (h : Agree s s') (e : Expr) (d id : Nat) :
    StatesAgree (State.start s e d id) (State.start s' e d id) := ⟨.eval h e, .nil, rfl, rfl⟩

end States

/-! ## Writing parameters into a table -/

/-- the table with each name bound to the value in its place -/
def bindAll (t : Bindings Value) : List String → List Value → Bindings Value
  | x :: xs, v :: vs => bindAll (t.set x v) xs vs
  | _, _ => t

theorem captured_eq (params : List String) (args : List Value) (t : Bindings Value) (registry : Registry) :
    Scope.captured ⟨params, args, t, registry⟩ = bindAll t params args := by
  unfold Scope.captured
  induction params generalizing args t with
  | nil => rfl
  | cons x xs ih =>
    cases args with
    | nil => rfl
    | cons v vs => exact ih vs (t.set x v)

/-- **Parameters** beside a table agree with the table that has them written into it. The first of equal names would be
found and the last of them written, so they have to be distinct. -/
theorem parameters_agree {params : List String} (hdistinct : params.Nodup) (args : List Value) (t : Bindings Value)
    (registry : Registry) : Agree ⟨params, args, t, registry⟩ (.global (bindAll t params args) registry) := by
  have hcaptured := captured_eq params args t registry
  refine ⟨fun x => ?_, hcaptured, rfl⟩
  have hlocal := captured_eq_local (s := ⟨params, args, t, registry⟩) hdistinct x
  rw [← hlocal, hcaptured]
  rfl

/-! ## Nested closures -/

/-- a call that is active: the parameters and their arguments -/
structure Layer where
  params : List String
  args : List Value

/-- the scope in the innermost of some calls, each of a function that was made in the next, and the last outside of any
function -/
def nested (t : Bindings Value) (registry : Registry) : List Layer → Scope
  | [] => .global t registry
  | l :: outer => ⟨l.params, l.args, (nested t registry outer).captured, registry⟩

/-- the table with the parameters of some calls written into it, the innermost last -/
def bindLayers (t : Bindings Value) : List Layer → Bindings Value
  | [] => t
  | l :: outer => bindAll (bindLayers t outer) l.params l.args

/-- what a name is bound to: the innermost parameter of the name, or else a variable -/
def bound? (t : Bindings Value) (layers : List Layer) (x : String) : Option Value :=
  (layers.findSome? fun l => (l.params.zip l.args).lookup x).or (t.get? x)

section Nested

variable {t : Bindings Value} {registry : Registry} {layers : List Layer}

theorem nested_registry (t : Bindings Value) (registry : Registry) (layers : List Layer) :
    (nested t registry layers).registry = registry := by
  cases layers <;> rfl

/-- A function that is made in nested calls, called in turn. -/
theorem call_nested (t : Bindings Value) (registry : Registry) (layers : List Layer) (calls : Nat)
    (f : FunctionValue) {l : Layer} (hlength : l.args.length = l.params.length) {body : Expr}
    (hf : f.body = .script ⟨l.params, body, (nested t registry layers).captured, registry⟩) :
    f.callWith (callClosure (calls + 1)) l.args =
      Eval.unlocated (evaluate (callClosure calls) (nested t registry (l :: layers)) body) := by
  have harity : f.arity.accepts l.args.length = true := by
    unfold FunctionValue.arity
    rw [hf]
    exact beq_iff_eq.2 hlength
  rw [FunctionValue.callWith_eq]
  rw [if_pos harity, hf]
  rfl

/-- **Nested calls** agree with the table that has all their parameters written into it. -/
theorem nested_agree (hdistinct : ∀ l ∈ layers, l.params.Nodup) :
    Agree (nested t registry layers) (.global (bindLayers t layers) registry) := by
  induction layers with
  | nil => exact Agree.refl _
  | cons l outer ih =>
    obtain ⟨hl, houter⟩ := List.forall_mem_cons.1 hdistinct
    have hcaptured : (nested t registry outer).captured = bindLayers t outer := (ih houter).captured
    rw [nested, hcaptured]
    exact parameters_agree hl l.args (bindLayers t outer) registry

theorem nested_bound (hdistinct : ∀ l ∈ layers, l.params.Nodup) (x : String) :
    (nested t registry layers).local? x = bound? t layers x := by
  induction layers with
  | nil => rfl
  | cons l outer ih =>
    obtain ⟨-, houter⟩ := List.forall_mem_cons.1 hdistinct
    -- what was captured stands for the names of the outer calls, since both are one table
    have hcaptured : (nested t registry outer).captured.get? x = bound? t outer x := by
      rw [← ih houter, (nested_agree houter).captured, (nested_agree houter).names]
      rfl
    simp only [nested, Scope.local?, bound?, List.findSome?_cons, hcaptured]
    cases (l.params.zip l.args).lookup x <;> rfl

/-- **Names** in nested calls: the innermost parameter, or else a variable, or else what the name means where nothing is
bound, which is a constant or else a function of the registry. -/
theorem nested_names (hdistinct : ∀ l ∈ layers, l.params.Nodup) (x : String) :
    (nested t registry layers).lookup x =
        (match bound? t layers x with
        | some v => .ok v
        | none => (Scope.global .empty registry).lookup x) ∧
      (nested t registry layers).callee x =
        match bound? t layers x with
        | some v => Scope.callable v
        | none => (Scope.global .empty registry).callee x := by
  unfold Scope.lookup Scope.callee
  rw [nested_bound hdistinct, nested_registry]
  cases bound? t layers x <;> exact ⟨rfl, rfl⟩

end Nested

/-! ## Main result -/

/-- **Calling a script function is evaluating its body with the parameters bound in the captured table.** In the scope
of distinct parameters and as many arguments, beside any table and registry, an expression has the outcome that it has
in the global scope over the table with each parameter bound to its argument: the same value with the same identities,
or the same error at the same span, however closures are called. Evaluated step by step, a step makes a function in the
one if and only if it makes it in the other, with the same captured bindings. So a call of a function with the
expression for its body has that outcome. The same holds in any further calls, each of a function that was made in the
one before: there a parameter shadows the parameters of outer calls, these shadow the table, and the table shadows the
constants and functions. -/
theorem calls_bind {params : List String} (hdistinct : params.Nodup) {args : List Value}
    (hlength : args.length = params.length) (t : Bindings Value) (registry : Registry) (e : Expr) :
    (∀ invoke, evaluate invoke ⟨params, args, t, registry⟩ e =
      evaluate invoke (.global (bindAll t params args) registry) e) ∧
    (∀ d id j f, Made ((State.start ⟨params, args, t, registry⟩ e d id).after j) f ↔
      Made ((State.start (.global (bindAll t params args) registry) e d id).after j) f) ∧
    (∀ calls (f : FunctionValue), f.body = .script ⟨params, e, t, registry⟩ →
      f.callWith (callClosure (calls + 1)) args =
        Eval.unlocated (evaluate (callClosure calls) (.global (bindAll t params args) registry) e)) ∧
    ∀ inner : List Layer, (∀ l ∈ inner, l.params.Nodup) →
      let layers := inner ++ [⟨params, args⟩]
      (∀ invoke body, evaluate invoke (nested t registry layers) body =
        evaluate invoke (.global (bindLayers t layers) registry) body) ∧
      (∀ calls (f : FunctionValue) (l : Layer) (body : Expr), l.args.length = l.params.length →
        f.body = .script ⟨l.params, body, (nested t registry layers).captured, registry⟩ →
        f.callWith (callClosure (calls + 1)) l.args =
          Eval.unlocated (evaluate (callClosure calls) (nested t registry (l :: layers)) body)) ∧
      ∀ x, (nested t registry layers).lookup x =
          (match bound? t layers x with
          | some v => .ok v
          | none => (Scope.global .empty registry).lookup x) ∧
        (nested t registry layers).callee x =
          match bound? t layers x with
          | some v => Scope.callable v
          | none => (Scope.global .empty registry).callee x := by
  have hagree : Agree ⟨params, args, t, registry⟩ (.global (bindAll t params args) registry) :=
    parameters_agree hdistinct args t registry
  refine ⟨fun invoke => evaluate_agree hagree invoke e, fun d id j f => ⟨?_, ?_⟩, fun calls f hf => ?_,
    fun inner hinner => ?_⟩
  · exact made_agree (after_agree (start_agree hagree e d id) j)
  · exact made_agree (after_agree (start_agree hagree.symm e d id) j)
  · rw [call_nested t registry [] calls f (l := ⟨params, args⟩) hlength hf]
    exact congrArg Eval.unlocated (evaluate_agree hagree (callClosure calls) e)
  · intro layers
    have hlayers : ∀ l ∈ layers, l.params.Nodup := by
      intro l hl
      rcases List.mem_append.1 hl with hl | hl
      · exact hinner l hl
      · rw [List.mem_singleton.1 hl]
        exact hdistinct
    exact ⟨fun invoke body => evaluate_agree (nested_agree hlayers) invoke body,
      fun calls f l body hl hf => call_nested t registry layers calls f hl hf, nested_names hlayers⟩

/-! ## Witness: a function in a function -/

/-- a table that binds the name of the parameter, and another -/
def outerTable : Bindings Value := (Bindings.empty.set "x" (.integer 1)).set "y" (.integer 2)

/-- `fn(pi) => x + y` -/
def innerFunction : Expr :=
  .lambda ⟨0, 15⟩ ["pi"] (.binary ⟨10, 15⟩ .add (.var ⟨10, 11⟩ "x") (.var ⟨14, 15⟩ "y"))

/-- The function that is made in a call captures the argument in place of the variable of the same name. In a call of
that function its parameter stands in place of the constant. -/
theorem inner_binds :
    ["x"].Nodup ∧ [Value.integer 3].length = ["x"].length ∧
      (evaluate (callClosure maxCalls) ⟨["x"], [.integer 3], outerTable, .standard 0⟩ innerFunction =
        evaluate (callClosure maxCalls) (.global (bindAll outerTable ["x"] [.integer 3]) (.standard 0)) innerFunction) ∧
      (bindAll outerTable ["x"] [.integer 3]).get? "x" = some (.integer 3) ∧
      (nested outerTable (.standard 0) [⟨["pi"], [.integer 4]⟩, ⟨["x"], [.integer 3]⟩]).lookup "pi" = .ok (.integer 4) ∧
      (nested outerTable (.standard 0) [⟨["pi"], [.integer 4]⟩, ⟨["x"], [.integer 3]⟩]).lookup "x" = .ok (.integer 3) ∧
      (nested outerTable (.standard 0) [⟨["pi"], [.integer 4]⟩, ⟨["x"], [.integer 3]⟩]).lookup "y" = .ok (.integer 2) := by
  have hdistinct : ["x"].Nodup := List.nodup_singleton "x"
  have hlength : [Value.integer 3].length = ["x"].length := rfl
  obtain ⟨hevaluate, -, -, hnested⟩ := calls_bind hdistinct hlength outerTable (.standard 0) innerFunction
  obtain ⟨-, -, hnames⟩ := hnested [⟨["pi"], [.integer 4]⟩] fun l hl => by
    rw [List.mem_singleton.1 hl]
    exact List.nodup_singleton "pi"
  exact ⟨hdistinct, hlength, hevaluate (callClosure maxCalls), rfl, (hnames "pi").1, (hnames "x").1, (hnames "y").1⟩

end CurveScript.Shadowing
