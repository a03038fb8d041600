/-
The identities of functions in an evaluation.

A function value is a handle: an identity, a name, a range, and what a call of it runs. Handles are passed on as they
are, and new identities are taken from a counter. A heap is what a history of evaluations has made so far: for each
identity the name and the body that it stands for. It grows, and no identity from the counter on is taken.

Results:
- `native_gives`: a native function gives no function but one of its arguments, a graph of one, or one of its own.
- `step_found`: after a step of an evaluation there are the functions that were there before it, unchanged, and the one
  that a lambda made. A case for each kind of step.
- `step_fits`, `reaches_fits`: a step, and any number of steps, fit a heap that has grown.
- `evaluate_fits`, `call_fits`: the outcome of an evaluation, and of a call from outside.
- `lambda_fresh`: a lambda takes an identity that no function has, in the evaluation or outside of it.
- `captured_eq_local`, `parameter_eq_argument`, `lookup_registered`, `plot_keeps`: capturing, passing, looking up and
  plotting give the very function.
-/
import CurveScript.Proofs.Finiteness

namespace CurveScript.Identities

open CurveScript.CallStack CurveScript.Finiteness CurveScript.Numbers CurveScript.Preservation

/-! ## Values without functions -/

/-- the value is no function and no graph -/
def Plain (v : Value) : Prop := v.function? = none

/-- Such a value has no parts. -/
theorem plain_part {v : Value} (h : Plain v) (w : Value) : ¬ Part v w := by
  intro hw
  cases hw <;> cases h

theorem not_holds_of_plain {v : Value} (h : Plain v) (f : FunctionValue) : ¬ Holds v (.function f) := by
  intro hf
  rcases Relation.ReflTransGen.cases_head hf with heq | ⟨w, hw, -⟩
  · rw [heq] at h
    cases h
  · exact plain_part h w hw

theorem not_holds_of_float (x : Float) (f : FunctionValue) : ¬ Holds (.float x) (.function f) :=
  not_holds_of_plain (show Plain (.float x) from rfl) f

theorem plain_number {v : Value} (h : Number v) : Plain v := by cases h <;> rfl

theorem unary_plain (op : UnaryOperator) (v : Value) : Yields Plain (v.unary op) := by
  cases op with
  | negate =>
    change Yields Plain v.negate
    unfold Value.negate
    split
    · split
      · exact yields_ok rfl
      · exact yields_error _
    · exact yields_ok rfl
    · exact yields_error _
  | plus =>
    change Yields Plain v.identity
    unfold Value.identity
    split
    · next hnumeric =>
      refine yields_ok ?_
      cases v <;> first | rfl | cases hnumeric
    · exact yields_error _

/-! ## Native functions -/

/-- **Plotting keeps the function**: what is plotted is the function that the first argument is or plots. -/
theorem plot_keeps {args : List Value} {w : Value} (h : Builtin.plot.call args = .ok w) :
    ∃ v rest f range, args = v :: rest ∧ v.function? = some f ∧ w = .graph ⟨f, range⟩ := by
  obtain ⟨v, rest, f, range, hargs, hf, -, -, hw⟩ := plot_gives h
  exact ⟨v, rest, f, range, hargs, hf, hw⟩

/-- **Native functions** make no function of their own. -/
theorem native_gives {call : NativeCall} {args : List Value} {w : Value} (h : call.call args = .ok w) :
    Plain w ∨ w ∈ args ∨ (∃ v ∈ args, ∃ f range, v.function? = some f ∧ w = .graph ⟨f, range⟩) ∨ Own call w := by
  cases native_given h with
  | number h => exact Or.inl (plain_number h)
  | unit => exact Or.inl rfl
  | argument h => exact Or.inr (Or.inl h)
  | @graph v f range hv hf _ _ => exact Or.inr (Or.inr (Or.inl ⟨v, hv, f, range, hf, rfl⟩))
  | own h => exact Or.inr (Or.inr (Or.inr h))

/-! ## What an evaluation holds -/

/-- the values of a scope -/
inductive ScopeHas (s : Scope) : Value → Prop where
  | arg {v : Value} (h : v ∈ s.args) : ScopeHas s v
  | bound {x : String} {v : Value} (h : s.table.get? x = some v) : ScopeHas s v
  | native {x : String} {f : FunctionValue} (h : s.registry.function? x = some f) : ScopeHas s (.function f)

/-- the values of what is done now -/
inductive ControlHas : Control → Value → Prop where
  | scope {s : Scope} {e : Expr} {v : Value} (h : ScopeHas s v) : ControlHas (.eval s e) v
  | collectScope {s : Scope} {span : Span} {f : FunctionValue} {known : List Value} {args : List Expr} {v : Value}
      (h : ScopeHas s v) : ControlHas (.collect s span f known args) v
  | collectCallee {s : Scope} {span : Span} {f : FunctionValue} {known : List Value} {args : List Expr} :
      ControlHas (.collect s span f known args) (.function f)
  | collectKnown {s : Scope} {span : Span} {f : FunctionValue} {known : List Value} {args : List Expr} {v : Value}
      (h : v ∈ known) : ControlHas (.collect s span f known args) v
  | applyCallee {span : Span} {f : FunctionValue} {args : List Value} : ControlHas (.apply span f args) (.function f)
  | applyArgument {span : Span} {f : FunctionValue} {args : List Value} {v : Value} (h : v ∈ args) :
      ControlHas (.apply span f args) v
  | value {v : Value} : ControlHas (.value v) v

/-- the values of what waits -/
inductive FrameHas : Frame → Value → Prop where
  | left {s : Scope} {span : Span} {op : BinaryOperator} {rhs : Expr} {v : Value} (h : ScopeHas s v) :
      FrameHas (.left s span op rhs) v
  | right {span : Span} {op : BinaryOperator} {v : Value} : FrameHas (.right span op v) v
  | callee {s : Scope} {span at_ : Span} {args : List Expr} {v : Value} (h : ScopeHas s v) :
      FrameHas (.callee s span at_ args) v
  | argumentScope {s : Scope} {span : Span} {f : FunctionValue} {known : List Value} {args : List Expr} {v : Value}
      (h : ScopeHas s v) : FrameHas (.argument s span f known args) v
  | argumentCallee {s : Scope} {span : Span} {f : FunctionValue} {known : List Value} {args : List Expr} :
      FrameHas (.argument s span f known args) (.function f)
  | argumentKnown {s : Scope} {span : Span} {f : FunctionValue} {known : List Value} {args : List Expr} {v : Value}
      (h : v ∈ known) : FrameHas (.argument s span f known args) v

/-- the values of an evaluation between two steps -/
inductive StateHas (st : State) (v : Value) : Prop where
  | control (h : ControlHas st.control v) : StateHas st v
  | frame {frame : Frame} (hmem : frame ∈ st.frames) (h : FrameHas frame v) : StateHas st v

/-- the function is found in a value of the evaluation -/
def Found (st : State) (g : FunctionValue) : Prop := ∃ v, StateHas st v ∧ Holds v (.function g)

/-- the function that the next step makes, if it evaluates a lambda -/
inductive Made (st : State) : FunctionValue → Prop where
  | lambda {s : Scope} {span : Span} {params : List String} {body : Expr}
      (h : st.control = .eval s (.lambda span params body)) :
      Made st ⟨none, st.nextId, .script ⟨params, body, s.captured, s.registry⟩, none⟩

/-- every function in the value is found in the evaluation, or made by its next step -/
def From (st : State) (v : Value) : Prop := ∀ g, Holds v (.function g) → Found st g ∨ Made st g

section Sources

variable {st : State} {s : Scope} {v w : Value} {f : FunctionValue}

theorem from_plain (h : Plain v) : From st v := fun g hg => absurd hg (not_holds_of_plain h g)

theorem from_holds (hw : StateHas st w) (h : Holds w v) : From st v :=
  fun _ hg => Or.inl ⟨w, hw, Relation.ReflTransGen.trans h hg⟩

theorem from_has (h : StateHas st v) : From st v := from_holds h Relation.ReflTransGen.refl

/-- A part is found where the whole is. -/
theorem from_part (hw : StateHas st w) (h : Part w v) : From st v := from_holds hw (Relation.ReflTransGen.single h)

theorem holds_of_function? (h : v.function? = some f) : Holds v (.function f) := by
  cases v with
  | function g =>
    cases h
    exact Relation.ReflTransGen.refl
  | graph g =>
    cases h
    exact Relation.ReflTransGen.single (.plotted g)
  | _ => cases h

theorem local?_has {x : String} (h : s.local? x = some v) : ScopeHas s v := by
  unfold Scope.local? at h
  split at h
  · next w hw =>
    cases h
    exact .arg (mem_of_lookup hw)
  · exact .bound h

theorem lookup_gives {x : String} (h : s.lookup x = .ok v) : Plain v ∨ ScopeHas s v := by
  unfold Scope.lookup at h
  split at h
  · next w hw =>
    cases h
    exact Or.inr (local?_has hw)
  · split at h
    · cases h
      exact Or.inl rfl
    · split at h
      · next f hf =>
        cases h
        exact Or.inr (.native hf)
      · cases h

theorem callable_eq_ok (h : Scope.callable v = .ok f) : v.function? = some f := by
  unfold Scope.callable at h
  split at h
  · next g hg =>
    cases h
    exact hg
  · cases h

theorem callee_gives {x : String} (h : s.callee x = .ok f) : ∃ w, ScopeHas s w ∧ Holds w (.function f) := by
  unfold Scope.callee at h
  split at h
  · next w hw => exact ⟨w, local?_has hw, holds_of_function? (callable_eq_ok h)⟩
  · split at h
    · next g hg =>
      cases h
      exact ⟨.function f, .native hg, Relation.ReflTransGen.refl⟩
    · cases h

theorem foldl_set_has {pairs : List (String × Value)} {t : Bindings Value} {x : String}
    (h : (pairs.foldl (fun t p => t.set p.1 p.2) t).get? x = some v) :
    (∃ p ∈ pairs, p.2 = v) ∨ t.get? x = some v := by
  induction pairs generalizing t with
  | nil => exact Or.inr h
  | cons p ps ih =>
    rcases ih h with ⟨q, hq, hv⟩ | hset
    · exact Or.inl ⟨q, List.mem_cons_of_mem p hq, hv⟩
    · rw [Bindings.get?_set] at hset
      split at hset
      · cases hset
        exact Or.inl ⟨p, List.mem_cons_self, rfl⟩
      · exact Or.inr hset

/-- What a function captures was in the scope where it was made. -/
theorem captured_has {x : String} (h : s.captured.get? x = some v) : ScopeHas s v := by
  rcases foldl_set_has h with ⟨p, hp, rfl⟩ | htable
  · exact .arg (List.of_mem_zip hp).2
  · exact .bound htable

/-- The parts of a function that is made in a scope are the scope's, apart from numbers. -/
theorem made_part {name : Option String} {id : Nat} {params : List String} {body : Expr}
    (h : Part (.function ⟨name, id, .script ⟨params, body, s.captured, s.registry⟩, none⟩) v) :
    Plain v ∨ ScopeHas s v := by
  cases h with
  | captured hf hv =>
    cases hf
    exact Or.inr (captured_has hv)
  | native hf hn =>
    cases hf
    exact Or.inr (.native hn)
  | constant | literal => exact Or.inl rfl
  | own hf => cases hf
  | functionRange hr => cases hr

/-- what the result of an operation holds -/
theorem from_settle {span : Span} {r : Except EvalError Value} (h : ∀ v, r = .ok v → From st v)
    (hv : ControlHas (settle span r) v) : From st v := by
  cases r with
  | ok w =>
    cases hv
    exact h v rfl
  | error e => cases hv

end Sources

/-! ## Steps -/

variable {st st' : State}

/-- all that the second state holds is from the first -/
def Comes (st st' : State) : Prop := ∀ v, StateHas st' v → From st v

/-- a state in which nothing more waits -/
theorem comes_kept (hframes : ∀ frame ∈ st'.frames, frame ∈ st.frames)
    (hcontrol : ∀ v, ControlHas st'.control v → From st v) : Comes st st' := by
  intro v hv
  rcases hv with h | ⟨hmem, h⟩
  · exact hcontrol v h
  · exact from_has (.frame (hframes _ hmem) h)

/-- a state in which one more frame waits -/
theorem comes_pushed {frame : Frame} {fs : List Frame} (hpush : st'.frames = frame :: fs)
    (hframes : ∀ frame ∈ fs, frame ∈ st.frames) (hframe : ∀ v, FrameHas frame v → From st v)
    (hcontrol : ∀ v, ControlHas st'.control v → From st v) : Comes st st' := by
  intro v hv
  rcases hv with h | ⟨hmem, h⟩
  · exact hcontrol v h
  · rw [hpush] at hmem
    rcases List.mem_cons.1 hmem with rfl | hmem
    · exact hframe v h
    · exact from_has (.frame (hframes _ hmem) h)

theorem failure_from {f : Failure} {v : Value} (h : ControlHas (.failure f) v) : From st v := by cases h

/-- A function that is made holds what its scope held. -/
theorem lambda_from {s : Scope} {span : Span} {params : List String} {body : Expr}
    (hc : st.control = .eval s (.lambda span params body)) :
    From st (.function ⟨none, st.nextId, .script ⟨params, body, s.captured, s.registry⟩, none⟩) := by
  intro g hg
  rcases Relation.ReflTransGen.cases_head hg with heq | ⟨w, hw, hrest⟩
  · cases heq
    exact Or.inr (.lambda hc)
  · rcases made_part hw with hplain | hhas
    · exact absurd hrest (not_holds_of_plain hplain g)
    · exact from_has (.control (hc ▸ .scope hhas)) g hrest

/-- The step into an expression: the scope goes on, a name gives what the scope holds, and a lambda makes a function. -/
theorem enter_comes {s : Scope} {e : Expr} (hc : st.control = .eval s e) : Comes st (st.enter s e) := by
  have hscope : ∀ w, ScopeHas s w → From st w := fun w hw => from_has (.control (hc ▸ .scope hw))
  have heval : ∀ (e : Expr) (v : Value), ControlHas (.eval s e) v → From st v := by
    rintro e v ⟨h⟩
    exact hscope v h
  have hkept : ∀ frame ∈ st.frames, frame ∈ st.frames := fun _ h => h
  unfold State.enter
  split
  case h_1 | h_2 =>
    refine comes_kept hkept fun v hv => ?_
    cases hv
    exact from_plain rfl
  case h_3 =>
    refine comes_kept hkept fun v hv => from_settle (fun w hw => ?_) hv
    rcases lookup_gives hw with hplain | hhas
    · exact from_plain hplain
    · exact hscope w hhas
  case h_4 => exact comes_pushed rfl hkept (fun v hv => by cases hv) (heval _)
  case h_5 =>
    refine comes_pushed rfl hkept (fun v hv => ?_) (heval _)
    cases hv with
    | left h => exact hscope v h
  case h_6 =>
    split
    · next f hf =>
      refine comes_kept hkept fun v hv => ?_
      cases hv with
      | collectScope h => exact hscope v h
      | collectCallee =>
        obtain ⟨w, hw, hholds⟩ := callee_gives hf
        exact from_holds (.control (hc ▸ .scope hw)) hholds
      | collectKnown h => cases h
    · exact comes_kept hkept fun v => failure_from
  case h_7 =>
    refine comes_pushed rfl hkept (fun v hv => ?_) (heval _)
    cases hv with
    | callee h => exact hscope v h
  case h_8 span params body =>
    refine comes_kept hkept fun v hv => ?_
    cases hv
    exact lambda_from hc

/-- The step into a call: the body sees its arguments, what was captured, and the registry of its function. -/
theorem apply_comes {span : Span} {f : FunctionValue} {args : List Value} (hc : st.control = .apply span f args) :
    Comes st (st.call span f args) := by
  have hfunction : StateHas st (.function f) := .control (hc ▸ .applyCallee)
  have hargs : ∀ w ∈ args, StateHas st w := fun w hw => .control (hc ▸ .applyArgument hw)
  have hkept : ∀ frame ∈ st.frames, frame ∈ st.frames := fun _ h => h
  unfold State.call
  split
  · cases hbody : f.body with
    | native arity native =>
      refine comes_kept hkept fun v hv => from_settle (fun w hw => ?_) hv
      rcases native_gives hw with hplain | harg | ⟨a, ha, g, range, hg, rfl⟩ | hown
      · exact from_plain hplain
      · exact from_has (hargs w harg)
      · intro k hk
        rcases Relation.ReflTransGen.cases_head hk with heq | ⟨u, hu, hrest⟩
        · cases heq
        · cases hu with
          | plotted => exact from_holds (hargs a ha) (holds_of_function? hg) k hrest
          | graphRange => exact absurd hrest (not_holds_of_float _ k)
      · exact from_part hfunction (.own hbody hown)
    | script c =>
      simp only
      split
      · refine comes_pushed rfl hkept (fun v hv => by cases hv) ?_
        rintro v ⟨h⟩
        cases h with
        | arg h => exact from_has (hargs v h)
        | bound h => exact from_part hfunction (.captured hbody h)
        | native h => exact from_part hfunction (.native hbody h)
      · exact comes_kept hkept fun v => failure_from
  · exact comes_kept hkept fun v => failure_from

/-- The step that gives a value to what waits for it. -/
theorem give_comes {w : Value} {frame : Frame} {fs : List Frame} (hc : st.control = .value w)
    (hfs : st.frames = frame :: fs) : Comes st (st.give w fs frame) := by
  have hvalue : StateHas st w := .control (hc ▸ .value)
  have hframe : ∀ u, FrameHas frame u → From st u := fun u hu => from_has (.frame (hfs ▸ List.mem_cons_self) hu)
  have hkept : ∀ frame' ∈ fs, frame' ∈ st.frames := fun frame' hmem => hfs ▸ List.mem_cons_of_mem frame hmem
  cases frame with
  | unary span op => exact comes_kept hkept fun v => from_settle fun u hu => from_plain (unary_plain op w u hu)
  | left s span op rhs =>
    refine comes_pushed rfl hkept ?_ ?_
    · rintro v ⟨⟩
      exact from_has hvalue
    · rintro v ⟨h⟩
      exact hframe v (.left h)
  | right span op lhs => exact comes_kept hkept fun v => from_settle fun u hu => from_plain (plain_number (binary_number op lhs w u hu))
  | callee s span at_ args =>
    simp only [State.give]
    split
    · next f hf =>
      refine comes_kept hkept fun v hv => ?_
      cases hv with
      | collectScope h => exact hframe v (.callee h)
      | collectCallee => exact from_holds hvalue (holds_of_function? (callable_eq_ok hf))
      | collectKnown h => cases h
    · exact comes_kept hkept fun v => failure_from
  | argument s span f known args =>
    refine comes_kept hkept fun v hv => ?_
    cases hv with
    | collectScope h => exact hframe v (.argumentScope h)
    | collectCallee => exact hframe _ .argumentCallee
    | collectKnown h =>
      rcases List.mem_append.1 h with h | h
      · exact hframe v (.argumentKnown h)
      · rw [List.mem_singleton.1 h]
        exact from_has hvalue
  | body span => exact comes_kept hkept fun v hv => from_has (.control hv)

/-- The step that takes an error out of what waits. -/
theorem unwind_comes {f : Failure} {frame : Frame} {fs : List Frame} (hc : st.control = .failure f)
    (hfs : st.frames = frame :: fs) : Comes st (st.unwind f fs frame) := by
  have hkept : ∀ frame' ∈ fs, frame' ∈ st.frames := fun frame' hmem => hfs ▸ List.mem_cons_of_mem frame hmem
  have hcontrol : ∀ v, ControlHas st.control v → From st v := by
    rw [hc]
    exact fun v => failure_from
  cases frame with
  | body span => exact comes_kept hkept fun v => failure_from
  | _ => exact comes_kept hkept hcontrol

theorem step_comes (hs : st.step = some st') : Comes st st' := by
  have hkept : ∀ frame ∈ st.frames, frame ∈ st.frames := fun _ h => h
  unfold State.step at hs
  split at hs
  · next hc =>
    cases hs
    exact enter_comes hc
  · next s span f known hc =>
    cases hs
    refine comes_kept hkept fun v hv => from_has (.control ?_)
    rw [hc]
    cases hv with
    | applyCallee => exact .collectCallee
    | applyArgument h => exact .collectKnown h
  · next s span f known e es hc =>
    cases hs
    refine comes_pushed rfl hkept ?_ ?_
    · intro v hv
      refine from_has (.control ?_)
      rw [hc]
      cases hv with
      | argumentScope h => exact .collectScope h
      | argumentCallee => exact .collectCallee
      | argumentKnown h => exact .collectKnown h
    · rintro v ⟨h⟩
      exact from_has (.control (hc ▸ .collectScope h))
  · next hc =>
    cases hs
    exact apply_comes hc
  · next hc =>
    split at hs
    · cases hs
    · next hfs =>
      cases hs
      exact give_comes hc hfs
  · next hc =>
    split at hs
    · cases hs
    · next hfs =>
      cases hs
      exact unwind_comes hc hfs

/-- **One step** makes no function but that of a lambda, and changes none. -/
theorem step_found (hs : st.step = some st') {g : FunctionValue} (hg : Found st' g) : Found st g ∨ Made st g := by
  obtain ⟨v, hv, hholds⟩ := hg
  exact step_comes hs v hv g hholds

/-- An evaluation that does not evaluate a lambda now takes no identity now. -/
theorem step_nextId (hs : st.step = some st') (hnone : ∀ g, ¬ Made st g) : st'.nextId = st.nextId := by
  unfold State.step at hs
  split at hs
  · next s e hc =>
    cases hs
    unfold State.enter
    split
    case h_6 => split <;> rfl
    case h_8 => exact absurd (.lambda hc) (hnone _)
    all_goals rfl
  · cases hs
    rfl
  · cases hs
    rfl
  · cases hs
    unfold State.call
    split
    · split
      · rfl
      · split <;> rfl
    · rfl
  · next v hc =>
    split at hs
    · cases hs
    · next frame fs hfs =>
      cases hs
      cases frame with
      | callee s span at_ args =>
        simp only [State.give]
        split <;> rfl
      | _ => rfl
  · split at hs
    · cases hs
    · next frame fs hfs =>
      cases hs
      cases frame <;> rfl

/-- A lambda gives the function that it makes, and takes the next identity for it. -/
theorem made_step {g : FunctionValue} (hg : Made st g) :
    st.step = some { st with control := .value (.function g), nextId := st.nextId + 1 } ∧ g.id = st.nextId := by
  obtain ⟨hc⟩ := hg
  refine ⟨?_, rfl⟩
  unfold State.step
  rw [hc]
  rfl

theorem made_unique {g g' : FunctionValue} (hg : Made st g) (hg' : Made st g') : g = g' := by
  obtain ⟨hc⟩ := hg
  obtain ⟨hc'⟩ := hg'
  cases hc.symm.trans hc'
  rfl

/-! ## Heaps -/

/-- a function apart from its identity and its range: its name, and what a call of it runs -/
abbrev Origin := Option String × Body

/-- what the identity of a function stands for -/
def origin (f : FunctionValue) : Origin := (f.name, f.body)

/-- what each identity stands for, as far as it was given out -/
abbrev Heap := Nat → Option Origin

/-- what is in the first heap is in the second -/
def Grows (h h' : Heap) : Prop := ∀ id o, h id = some o → h' id = some o

/-- no identity from `n` on was given out -/
def FreeFrom (h : Heap) (n : Nat) : Prop := ∀ id, n ≤ id → h id = none

/-- each function in the value is what the heap has for its identity -/
def Knows (h : Heap) (v : Value) : Prop := ∀ f, Holds v (.function f) → h f.id = some (origin f)

/-- the heap has all that the evaluation holds, and the next identity is free -/
structure Fits (h : Heap) (st : State) : Prop where
  free : FreeFrom h st.nextId
  knows : ∀ v, StateHas st v → Knows h v

section Heaps

variable {h h' h'' : Heap} {v w : Value} {id : Nat}

theorem Grows.refl (h : Heap) : Grows h h := fun _ _ hid => hid

theorem Grows.trans (hgrows : Grows h h') (hgrows' : Grows h' h'') : Grows h h'' :=
  fun id o hid => hgrows' id o (hgrows id o hid)

theorem Knows.mono (hv : Knows h v) (hgrows : Grows h h') : Knows h' v := fun f hf => hgrows _ _ (hv f hf)

theorem Knows.holds (hv : Knows h v) (hw : Holds v w) : Knows h w :=
  fun f hf => hv f (Relation.ReflTransGen.trans hw hf)

theorem knows_plain (hv : Plain v) : Knows h v := fun f hf => absurd hf (not_holds_of_plain hv f)

/-- the heap with what the next identity stands for -/
def push (h : Heap) (id : Nat) (o : Origin) : Heap := fun other => if other = id then some o else h other

theorem push_grows (hfree : FreeFrom h id) (o : Origin) : Grows h (push h id o) := by
  intro other p hp
  have hne : other ≠ id := by
    rintro rfl
    rw [hfree other (Nat.le_refl _)] at hp
    cases hp
  rw [push, if_neg hne]
  exact hp

theorem push_free (hfree : FreeFrom h id) (o : Origin) : FreeFrom (push h id o) (id + 1) := by
  intro other hother
  rw [push, if_neg (by omega)]
  exact hfree other (by omega)

theorem push_self (h : Heap) (id : Nat) (o : Origin) : push h id o id = some o := if_pos rfl

/-- A function whose parts are known is known once its identity is given out for it. -/
theorem knows_pushed {f : FunctionValue} (hfree : FreeFrom h f.id) (hparts : ∀ w, Part (.function f) w → Knows h w) :
    Knows (push h f.id (origin f)) (.function f) := by
  intro g hg
  rcases Relation.ReflTransGen.cases_head hg with heq | ⟨w, hw, hrest⟩
  · cases heq
    exact push_self h f.id (origin f)
  · exact (hparts w hw).mono (push_grows hfree (origin f)) g hrest

end Heaps

variable {h : Heap}

theorem Fits.found (hfits : Fits h st) {g : FunctionValue} (hg : Found st g) : h g.id = some (origin g) := by
  obtain ⟨v, hv, hholds⟩ := hg
  exact hfits.knows v hv g hholds

/-- **A lambda takes a fresh identity.** -/
theorem lambda_fresh (hfits : Fits h st) {g : FunctionValue} (hg : Made st g) : h g.id = none := by
  obtain ⟨hc⟩ := hg
  exact hfits.free _ (Nat.le_refl _)

/-- **One step** fits a heap that has grown by the function of a lambda, if there was one. -/
theorem step_fits (hfits : Fits h st) (hs : st.step = some st') : ∃ h', Grows h h' ∧ Fits h' st' := by
  -- the heap grows only where a lambda is evaluated, since nothing else takes an identity
  by_cases hmade : ∃ g, Made st g
  · obtain ⟨g, hg⟩ := hmade
    obtain ⟨hstep, hid⟩ := made_step hg
    have hst' := Option.some.inj (hs.symm.trans hstep)
    have hgrows : Grows h (push h st.nextId (origin g)) := push_grows hfits.free (origin g)
    refine ⟨_, hgrows, ?_, ?_⟩
    · rw [hst']
      exact push_free hfits.free (origin g)
    · intro v hv f hf
      rcases step_found hs ⟨v, hv, hf⟩ with hfound | hf
      · exact hgrows _ _ (hfits.found hfound)
      · rw [made_unique hf hg, hid]
        exact push_self h st.nextId (origin g)
  · have hnone : ∀ g, ¬ Made st g := fun g hg => hmade ⟨g, hg⟩
    refine ⟨h, Grows.refl h, ?_, ?_⟩
    · rw [step_nextId hs hnone]
      exact hfits.free
    · intro v hv f hf
      rcases step_found hs ⟨v, hv, hf⟩ with hfound | hf
      · exact hfits.found hfound
      · exact absurd hf (hnone f)

/-- **Any number of steps**, whether the evaluation succeeds or not. -/
theorem reaches_fits (hfits : Fits h st) (hs : Reaches st st') : ∃ h', Grows h h' ∧ Fits h' st' := by
  induction hs with
  | refl => exact ⟨h, Grows.refl h, hfits⟩
  | tail _ hstep ih =>
    obtain ⟨h', hgrows, hfits'⟩ := ih
    obtain ⟨h'', hgrows', hfits''⟩ := step_fits hfits' hstep
    exact ⟨h'', hgrows.trans hgrows', hfits''⟩

/-! ## Outcomes -/

/-- The heap can grow, so that the identities from `n` on are free and it has the property `P`. -/
def Grown (h : Heap) (n : Nat) (P : Heap → Prop) : Prop := ∃ h', Grows h h' ∧ FreeFrom h' n ∧ P h'

section Grown

variable {n m : Nat} {P Q : Heap → Prop}

theorem Grown.same (hfree : FreeFrom h n) (hp : P h) : Grown h n P := ⟨h, Grows.refl h, hfree, hp⟩

theorem Grown.pushed (hfree : FreeFrom h n) {o : Origin} (hp : P (push h n o)) : Grown h (n + 1) P :=
  ⟨_, push_grows hfree o, push_free hfree o, hp⟩

theorem Grown.bind (hg : Grown h n P) (hnext : ∀ h', Grows h h' → FreeFrom h' n → P h' → Grown h' m Q) :
    Grown h m Q := by
  obtain ⟨h', hgrows, hfree, hp⟩ := hg
  obtain ⟨h'', hgrows', hfree', hq⟩ := hnext h' hgrows hfree hp
  exact ⟨h'', hgrows.trans hgrows', hfree', hq⟩

theorem Grown.mono (hg : Grown h n P) (himp : ∀ h', Grows h h' → P h' → Q h') : Grown h n Q :=
  hg.bind fun h' hgrows hfree hp => .same hfree (himp h' hgrows hp)

end Grown

/-- the heap has all that the scope holds -/
def KnowsScope (h : Heap) (s : Scope) : Prop := ∀ v, ScopeHas s v → Knows h v

/-- What an evaluation gives is known to a heap that has grown. -/
theorem outcome_fits (hfits : Fits h st) {v : Value} {fs : List Frame} {d id : Nat}
    (hs : Reaches st ⟨.value v, fs, d, id⟩) : Grown h id fun h' => Knows h' v := by
  obtain ⟨h', hgrows, hfits'⟩ := reaches_fits hfits hs
  exact ⟨h', hgrows, hfits'.free, hfits'.knows v (.control .value)⟩

theorem fits_eval {s : Scope} {id : Nat} (hfree : FreeFrom h id) (hs : KnowsScope h s) (e : Expr) :
    Fits h (State.start s e 0 id) := by
  refine ⟨hfree, ?_⟩
  rintro v (⟨⟨hv⟩⟩ | ⟨hmem, -⟩)
  · exact hs v hv
  · cases hmem

theorem fits_apply {f : FunctionValue} {args : List Value} {id : Nat} (hfree : FreeFrom h id)
    (hf : Knows h (.function f)) (hargs : ∀ a ∈ args, Knows h a) (span : Span) :
    Fits h ⟨.apply span f args, [], 0, id⟩ := by
  refine ⟨hfree, ?_⟩
  rintro v (⟨hv⟩ | ⟨hmem, -⟩)
  · cases hv with
    | applyCallee => exact hf
    | applyArgument hv => exact hargs v hv
  · cases hmem

/-- The machine follows a call from outside. -/
theorem leads_call (span : Span) (f : FunctionValue) (args : List Value) (id : Nat) :
    Leads ⟨.apply span f args, [], 0, id⟩ [] 0 (Eval.located span (f.call args) id) .value :=
  leads_apply (fun m _ => follows m) span f args [] 0 id (Nat.add_zero maxCalls)

/-- **Expressions.** -/
theorem evaluate_fits {s : Scope} {e : Expr} {id id' : Nat} {v : Value} (hfree : FreeFrom h id) (hs : KnowsScope h s)
    (he : evaluate (callClosure maxCalls) s e id = .ok (v, id')) : Grown h id' fun h' => Knows h' v := by
  have hleads := leads_evaluate s e [] 0 id (Nat.zero_le _)
  rw [Nat.sub_zero, he] at hleads
  exact outcome_fits (fits_eval hfree hs e) hleads

/-- **Calls from outside.** -/
theorem call_fits {f : FunctionValue} {args : List Value} {id id' : Nat} {v : Value} (hfree : FreeFrom h id)
    (hf : Knows h (.function f)) (hargs : ∀ a ∈ args, Knows h a) (hcall : f.call args id = .ok (v, id')) :
    Grown h id' fun h' => Knows h' v := by
  have hleads := leads_call ⟨0, 0⟩ f args id
  have hlocated : Eval.located ⟨0, 0⟩ (f.call args) id = .ok (v, id') := by
    unfold Eval.located
    rw [hcall]
  rw [hlocated] at hleads
  exact outcome_fits (fits_apply hfree hf hargs ⟨0, 0⟩) hleads

/-- A function that is made in a known scope is known once its identity is given out for it. -/
theorem knows_made {s : Scope} {id : Nat} (hfree : FreeFrom h id) (hs : KnowsScope h s) (name : Option String)
    (params : List String) (body : Expr) :
    Knows (push h id (name, .script ⟨params, body, s.captured, s.registry⟩))
      (.function ⟨name, id, .script ⟨params, body, s.captured, s.registry⟩, none⟩) := by
  refine knows_pushed (f := ⟨name, id, .script ⟨params, body, s.captured, s.registry⟩, none⟩) hfree fun w hw => ?_
  rcases made_part hw with hplain | hhas
  · exact knows_plain hplain
  · exact hs w hhas

/-! ## Passing a function on -/

theorem lookup_foldl_set {params : List String} (hnodup : params.Nodup) (args : List Value) (t : Bindings Value)
    (x : String) : ((params.zip args).foldl (fun t p => t.set p.1 p.2) t).get? x =
      match (params.zip args).lookup x with
      | some v => some v
      | none => t.get? x := by
  induction params generalizing args t with
  | nil => rfl
  | cons p ps ih =>
    obtain ⟨hp, hps⟩ := List.nodup_cons.1 hnodup
    cases args with
    | nil => rfl
    | cons a as =>
      rw [List.zip_cons_cons, List.foldl_cons, ih hps, List.lookup_cons, Bindings.get?_set]
      by_cases hx : x = p
      · subst hx
        have hnone : (ps.zip as).lookup x = none := by
          rw [List.lookup_eq_none_iff]
          intro q hq
          have hne : x ≠ q.1 := by
            rintro rfl
            exact hp (List.of_mem_zip hq).1
          exact bne_iff_ne.2 hne
        simp only [hnone, if_true, beq_self_eq_true]
      · simp only [if_neg hx, beq_false_of_ne hx]

/-- **Capturing** keeps what the names mean. -/
theorem captured_eq_local {s : Scope} (hnodup : s.params.Nodup) (x : String) : s.captured.get? x = s.local? x :=
  lookup_foldl_set hnodup s.args s.table x

/-- **Passing**: a parameter is the argument in its place. -/
theorem parameter_eq_argument {params : List String} (hnodup : params.Nodup) {args : List Value} {i : Nat} {x : String}
    {v : Value} (hx : params[i]? = some x) (hv : args[i]? = some v) (table : Bindings Value) (registry : Registry) :
    Scope.lookup ⟨params, args, table, registry⟩ x = .ok v := by
  have hlookup : (params.zip args).lookup x = some v := by
    induction params generalizing args i with
    | nil => cases hx
    | cons p ps ih =>
      obtain ⟨hp, hps⟩ := List.nodup_cons.1 hnodup
      cases args with
      | nil => cases hv
      | cons a as =>
        rw [List.zip_cons_cons, List.lookup_cons]
        cases i with
        | zero =>
          cases hx
          cases hv
          rw [beq_self_eq_true]
        | succ i =>
          have hmem : x ∈ ps := List.mem_of_getElem? hx
          have hne : x ≠ p := by
            rintro rfl
            exact hp hmem
          rw [beq_false_of_ne hne]
          exact ih hps hx hv
  simp only [Scope.lookup, Scope.local?, hlookup]

/-- **Looking up** a name that the registry has gives its function. -/
theorem lookup_registered {s : Scope} {x : String} {f : FunctionValue} (hlocal : s.local? x = none)
    (hf : s.registry.function? x = some f) :
    s.callee x = .ok f ∧ (s.registry.constant? x = none → s.lookup x = .ok (.function f)) := by
  refine ⟨?_, fun hconstant => ?_⟩
  · simp only [Scope.callee, hlocal, hf]
  · simp only [Scope.lookup, hlocal, hconstant, hf]

end CurveScript.Identities
