/-
Evaluation on an explicit stack, with a counter of the script calls that are active.

`evaluate` is told how many script calls may still become active and keeps no counter. Here an evaluation is a machine
that takes one small step at a time: it has a control (what is done now), a stack of frames (what waits for a value), a
counter `active` that is raised where a script function is entered and lowered where its body is left, by a value or by
an error, and the next identity. A self-applied function keeps the machine going, so that it stops is a theorem.

Results:
- `step_balanced`, `after_balanced`: `active` always is the number at the start plus the number of bodies on the stack,
  and never exceeds `maxCalls`.
- `leads_evaluate`: from an expression on top of any frames the machine comes back to these frames, with the value or
  the error that `evaluate` gives and with the counter it had. The induction is on the calls that may still become
  active, then on the expression.
- `evaluation_stops`: an evaluation with `d ≤ maxCalls` active calls stops after finitely many steps with the outcome
  of `evaluate` and with `d` active calls; at no step are more than `maxCalls` calls active, and a call that would be
  one more fails with `recursionLimit maxCalls`.
-/
import Mathlib.Logic.Relation
import Mathlib.Tactic.SplitIfs
import CurveScript.Evaluation

namespace CurveScript.CallStack

/-! ## The machine -/

/-- what waits for a value -/
inductive Frame where
  | unary (span : Span) (op : UnaryOperator)
  /-- the left operand is being evaluated -/
  | left (s : Scope) (span : Span) (op : BinaryOperator) (rhs : Expr)
  /-- the right operand is being evaluated -/
  | right (span : Span) (op : BinaryOperator) (lhs : Value)
  /-- a callee that stands at `at_` is being evaluated -/
  | callee (s : Scope) (span at_ : Span) (args : List Expr)
  /-- an argument is being evaluated -/
  | argument (s : Scope) (span : Span) (f : FunctionValue) (known : List Value) (args : List Expr)
  /-- the body of a script function is being evaluated, which was called at `span` -/
  | body (span : Span)

/-- whether the frame is an active script call -/
def Frame.isBody : Frame → Bool
  | body _ => true
  | _ => false

/-- what is done now -/
inductive Control where
  | eval (s : Scope) (e : Expr)
  /-- the further arguments of a call at `span` -/
  | collect (s : Scope) (span : Span) (f : FunctionValue) (known : List Value) (args : List Expr)
  | apply (span : Span) (f : FunctionValue) (args : List Value)
  | value (v : Value)
  | failure (f : Failure)

/-- the machine between two steps -/
structure State where
  control : Control
  frames : List Frame
  active : Nat
  nextId : Nat

/-- the control after an operation at `span` -/
def settle (span : Span) : Except EvalError Value → Control
  | .ok v => .value v
  | .error e => .failure ⟨e, span⟩

namespace State

/-- the step into an expression -/
def enter (st : State) (s : Scope) : Expr → State
  | .integer _ n => { st with control := .value (.integer n) }
  | .float _ x => { st with control := .value (.float x) }
  | .var span name => { st with control := settle span (s.lookup name) }
  | .unary span op e => { st with control := .eval s e, frames := .unary span op :: st.frames }
  | .binary span op lhs rhs => { st with control := .eval s lhs, frames := .left s span op rhs :: st.frames }
  | .call span (.var at_ name) args =>
    match s.callee name with
    | .ok f => { st with control := .collect s span f [] args }
    | .error e => { st with control := .failure ⟨e, at_⟩ }
  | .call span callee args =>
    { st with control := .eval s callee, frames := .callee s span callee.span args :: st.frames }
  | .lambda _ params body =>
    { st with
      control := .value (.function ⟨none, st.nextId, .script ⟨params, body, s.captured, s.registry⟩, none⟩)
      nextId := st.nextId + 1 }

/-- the step into a call: only a script function becomes active, and only below the limit -/
def call (st : State) (span : Span) (f : FunctionValue) (args : List Value) : State :=
  if f.arity.accepts args.length then
    match f.body with
    | .native _ native => { st with control := settle span (native.call args) }
    | .script c =>
      if st.active < maxCalls then
        { st with
          control := .eval ⟨c.params, args, c.captured, c.registry⟩ c.body
          frames := .body span :: st.frames
          active := st.active + 1 }
      else { st with control := .failure ⟨.recursionLimit maxCalls, span⟩ }
  else { st with control := .failure ⟨.wrongArgumentCount f.displayName f.arity args.length, span⟩ }

/-- the step that gives a value to the innermost frame; leaving a body lowers the counter -/
def give (st : State) (v : Value) (fs : List Frame) : Frame → State
  | .unary span op => { st with control := settle span (v.unary op), frames := fs }
  | .left s span op rhs => { st with control := .eval s rhs, frames := .right span op v :: fs }
  | .right span op lhs => { st with control := settle span (Value.binary op lhs v), frames := fs }
  | .callee s span at_ args =>
    match Scope.callable v with
    | .ok f => { st with control := .collect s span f [] args, frames := fs }
    | .error e => { st with control := .failure ⟨e, at_⟩, frames := fs }
  | .argument s span f known args => { st with control := .collect s span f (known ++ [v]) args, frames := fs }
  | .body _ => { st with frames := fs, active := st.active - 1 }

/-- the step that takes an error out of the innermost frame; leaving a body lowers the counter and forgets the place -/
def unwind (st : State) (f : Failure) (fs : List Frame) : Frame → State
  | .body span => { st with control := .failure ⟨f.error, span⟩, frames := fs, active := st.active - 1 }
  | _ => { st with frames := fs }

/-- one step; there is none from a value or an error for which no frame waits -/
def step (st : State) : Option State :=
  match st.control with
  | .eval s e => some (st.enter s e)
  | .collect _ span f known [] => some { st with control := .apply span f known }
  | .collect s span f known (e :: es) =>
    some { st with control := .eval s e, frames := .argument s span f known es :: st.frames }
  | .apply span f args => some (st.call span f args)
  | .value v =>
    match st.frames with
    | [] => none
    | frame :: fs => some (st.give v fs frame)
  | .failure f =>
    match st.frames with
    | [] => none
    | frame :: fs => some (st.unwind f fs frame)

/-- the machine after so many steps, or where it stopped before -/
def after : Nat → State → State
  | 0, st => st
  | k + 1, st =>
    match st.step with
    | none => st
    | some st' => after k st'

/-- the evaluation of an expression with `d` active calls -/
def start (s : Scope) (e : Expr) (d id : Nat) : State := ⟨.eval s e, [], d, id⟩

/-- the outcome of a machine that has stopped -/
def outcome (st : State) : Option (Except Failure (Value × Nat)) :=
  match st.control, st.frames with
  | .value v, [] => some (.ok (v, st.nextId))
  | .failure f, [] => some (.error f)
  | _, _ => none

/-- the number of bodies on the stack -/
def bodies (st : State) : Nat := st.frames.countP Frame.isBody

end State

/-! ## The counter -/

open State

/-- the counter stands for the bodies on the stack, on top of `d` calls that were active before, and keeps the limit -/
structure Balanced (d : Nat) (st : State) : Prop where
  balance : st.active = d + st.bodies
  limit : st.active ≤ maxCalls

theorem enter_balanced {d : Nat} {st : State} (s : Scope) (e : Expr) (h : Balanced d st) : Balanced d (st.enter s e) := by
  obtain ⟨hb, hl⟩ := h
  unfold State.enter
  split
  case h_6 => split <;> exact ⟨hb, hl⟩
  all_goals exact ⟨by simpa [bodies, Frame.isBody] using hb, hl⟩

theorem call_balanced {d : Nat} {st : State} (span : Span) (f : FunctionValue) (args : List Value) (h : Balanced d st) :
    Balanced d (st.call span f args) := by
  obtain ⟨hb, hl⟩ := h
  unfold State.call
  split
  · split
    · exact ⟨hb, hl⟩
    · split_ifs with hlt
      · refine ⟨?_, hlt⟩
        simp only [bodies, List.countP_cons, Frame.isBody, if_true] at hb ⊢
        omega
      · exact ⟨hb, hl⟩
  · exact ⟨hb, hl⟩

theorem give_balanced {d : Nat} {st : State} {v : Value} {frame : Frame} {fs : List Frame} (hfs : st.frames = frame :: fs)
    (h : Balanced d st) : Balanced d (st.give v fs frame) := by
  obtain ⟨hb, hl⟩ := h
  rw [bodies, hfs, List.countP_cons] at hb
  cases frame with
  | callee s span at_ args =>
    simp only [State.give]
    split <;> exact ⟨by simpa [bodies, Frame.isBody] using hb, hl⟩
  | body span =>
    simp only [Frame.isBody, if_true] at hb
    exact ⟨by simp only [State.give, bodies]; omega, by simp only [State.give]; omega⟩
  | _ => exact ⟨by simpa [State.give, bodies, Frame.isBody] using hb, hl⟩

theorem unwind_balanced {d : Nat} {st : State} {f : Failure} {frame : Frame} {fs : List Frame}
    (hfs : st.frames = frame :: fs) (h : Balanced d st) : Balanced d (st.unwind f fs frame) := by
  obtain ⟨hb, hl⟩ := h
  rw [bodies, hfs, List.countP_cons] at hb
  cases frame with
  | body span =>
    simp only [Frame.isBody, if_true] at hb
    exact ⟨by simp only [State.unwind, bodies]; omega, by simp only [State.unwind]; omega⟩
  | _ => exact ⟨by simpa [State.unwind, bodies, Frame.isBody] using hb, hl⟩

/-- **A step keeps the balance**, whichever way a body is entered or left. -/
theorem step_balanced {d : Nat} {st st' : State} (h : Balanced d st) (hs : st.step = some st') : Balanced d st' := by
  unfold State.step at hs
  split at hs
  · cases hs; exact enter_balanced _ _ h
  · cases hs; exact ⟨h.balance, h.limit⟩
  · cases hs; exact ⟨by simpa [bodies, Frame.isBody] using h.balance, h.limit⟩
  · cases hs; exact call_balanced _ _ _ h
  · split at hs
    · cases hs
    · next hfs => cases hs; exact give_balanced hfs h
  · split at hs
    · cases hs
    · next hfs => cases hs; exact unwind_balanced hfs h

theorem after_balanced {d : Nat} (k : Nat) {st : State} (h : Balanced d st) : Balanced d (st.after k) := by
  induction k generalizing st with
  | zero => exact h
  | succ k ih =>
    rw [State.after]
    split
    · exact h
    · next hs => exact ih (step_balanced h hs)

/-! ## The machine follows the evaluator -/

/-- the machine comes from one state to another -/
def Reaches : State → State → Prop := Relation.ReflTransGen fun a b => a.step = some b

theorem Reaches.refl (st : State) : Reaches st st := Relation.ReflTransGen.refl

theorem Reaches.trans {a b c : State} (h : Reaches a b) (h' : Reaches b c) : Reaches a c := Relation.ReflTransGen.trans h h'

theorem Reaches.step {a b c : State} (h : a.step = some b) (h' : Reaches b c) : Reaches a c :=
  Relation.ReflTransGen.head h h'

theorem Reaches.exists_after {a b : State} (h : Reaches a b) : ∃ k, a.after k = b := by
  induction h using Relation.ReflTransGen.head_induction_on with
  | refl => exact ⟨0, rfl⟩
  | head hstep _ ih =>
    obtain ⟨k, hk⟩ := ih
    exact ⟨k + 1, by simp only [State.after, hstep, hk]⟩

/-- From `st` the machine comes to the frames `fs` with `d` active calls. There it goes on with the result, or has the
error, of an evaluation that ended as `r`. -/
def Leads {α : Type} (st : State) (fs : List Frame) (d : Nat) (r : Except Failure (α × Nat)) (next : α → Control) :
    Prop :=
  match r with
  | .ok (a, id) => Reaches st ⟨next a, fs, d, id⟩
  | .error f => ∃ id, Reaches st ⟨.failure f, fs, d, id⟩

theorem Leads.step {α : Type} {st st' : State} {fs : List Frame} {d : Nat} {r : Except Failure (α × Nat)}
    {next : α → Control} (hs : st.step = some st') (h : Leads st' fs d r next) : Leads st fs d r next := by
  cases r with
  | ok p => exact Reaches.step hs h
  | error f => obtain ⟨id, hr⟩ := h; exact ⟨id, Reaches.step hs hr⟩

theorem Leads.reached {α : Type} {st st' : State} {fs : List Frame} {d : Nat} {r : Except Failure (α × Nat)}
    {next : α → Control} (hs : Reaches st st') (h : Leads st' fs d r next) : Leads st fs d r next := by
  cases r with
  | ok p => exact hs.trans h
  | error f => obtain ⟨id, hr⟩ := h; exact ⟨id, hs.trans hr⟩

theorem bind_apply {ε α β : Type} (x : Eval ε α) (f : α → Eval ε β) (id : Nat) :
    (x >>= f) id = match x id with
      | .ok (a, id') => f a id'
      | .error e => .error e := by
  show StateT.bind x f id = _
  unfold StateT.bind
  cases x id <;> rfl

theorem pure_apply {ε α : Type} (a : α) (id : Nat) : (pure a : Eval ε α) id = .ok (a, id) := rfl

/-- An evaluation under a frame that is no body: its value goes on, its error drops the frame. -/
theorem Leads.under {α β : Type} {st : State} {frame : Frame} {fs : List Frame} {d id : Nat} {x : Eval Failure α}
    {f : α → Eval Failure β} {next : α → Control} {next' : β → Control} (hframe : frame.isBody = false)
    (hx : Leads st (frame :: fs) d (x id) next)
    (hf : ∀ a id', Leads ⟨next a, frame :: fs, d, id'⟩ fs d (f a id') next') : Leads st fs d ((x >>= f) id) next' := by
  rw [bind_apply]
  cases hxid : x id with
  | ok p => rw [hxid] at hx; exact (hf p.1 p.2).reached hx
  | error e =>
    rw [hxid] at hx
    obtain ⟨id', hr⟩ := hx
    refine ⟨id', hr.trans (Reaches.step ?_ (Reaches.refl _))⟩
    cases frame <;> first | rfl | cases hframe

/-- An evaluation with no frame of its own, followed by another. -/
theorem Leads.bind {α β : Type} {st : State} {fs : List Frame} {d id : Nat} {x : Eval Failure α}
    {f : α → Eval Failure β} (next : α → Control) {next' : β → Control} (hx : Leads st fs d (x id) next)
    (hf : ∀ a id', Leads ⟨next a, fs, d, id'⟩ fs d (f a id') next') : Leads st fs d ((x >>= f) id) next' := by
  rw [bind_apply]
  cases hxid : x id with
  | ok p => rw [hxid] at hx; exact (hf p.1 p.2).reached hx
  | error e => rw [hxid] at hx; exact hx

theorem leads_settle {st : State} {fs : List Frame} {d id : Nat} (span : Span) (r : Except EvalError Value)
    (hs : st.step = some ⟨settle span r, fs, d, id⟩) : Leads st fs d (Eval.located span (Eval.lift r) id) .value := by
  cases r with
  | ok v => exact Reaches.step hs (Reaches.refl _)
  | error e => exact ⟨id, Reaches.step hs (Reaches.refl _)⟩

/-- the machine follows `evaluate` while `calls` more script functions may become active -/
def Follows (calls : Nat) : Prop :=
  ∀ (s : Scope) (e : Expr) (fs : List Frame) (d id : Nat), calls + d = maxCalls →
    Leads ⟨.eval s e, fs, d, id⟩ fs d (evaluate (callClosure calls) s e id) .value

/-- A call follows `callWith`; the body of a script function has one call less to become active. -/
theorem leads_apply {calls : Nat} (hbody : ∀ m, calls = m + 1 → Follows m) (span : Span) (f : FunctionValue)
    (args : List Value) (fs : List Frame) (d id : Nat) (hd : calls + d = maxCalls) :
    Leads ⟨.apply span f args, fs, d, id⟩ fs d (Eval.located span (f.callWith (callClosure calls) args) id) .value := by
  rw [FunctionValue.callWith_eq]
  by_cases harity : f.arity.accepts args.length = true
  · rw [if_pos harity]
    cases hf : f.body with
    | native arity native => exact leads_settle span _ (by simp only [State.step, State.call, harity, hf, if_true])
    | script c =>
      cases calls with
      | zero =>
        have hfull : ¬ d < maxCalls := by omega
        refine ⟨id, Reaches.step ?_ (Reaches.refl _)⟩
        simp only [State.step, State.call, harity, hf, if_true, if_neg hfull]
      | succ m =>
        have hfree : d < maxCalls := by omega
        have hin : State.step ⟨.apply span f args, fs, d, id⟩ =
            some ⟨.eval ⟨c.params, args, c.captured, c.registry⟩ c.body, .body span :: fs, d + 1, id⟩ := by
          simp only [State.step, State.call, harity, hf, if_true, if_pos hfree]
        have hrun := hbody m rfl ⟨c.params, args, c.captured, c.registry⟩ c.body (.body span :: fs) (d + 1) id (by omega)
        refine Leads.step hin ?_
        simp only [Eval.located, callClosure, Eval.unlocated]
        cases hr : evaluate (callClosure m) ⟨c.params, args, c.captured, c.registry⟩ c.body id with
        | ok p =>
          rw [hr] at hrun
          exact Reaches.trans hrun (Reaches.step rfl (Reaches.refl _))
        | error e =>
          rw [hr] at hrun
          obtain ⟨id', hr'⟩ := hrun
          exact ⟨id', hr'.trans (Reaches.step rfl (Reaches.refl _))⟩
  · rw [if_neg harity]
    refine ⟨id, Reaches.step ?_ (Reaches.refl _)⟩
    simp only [State.step, State.call, if_neg harity]

/-- A callee is a name, which is looked up, or else it is evaluated. -/
theorem callee_cases (callee : Expr) :
    (∃ at_ name, callee = .var at_ name) ∨ ∀ at_ name, callee ≠ .var at_ name := by
  cases callee with
  | var at_ name => exact Or.inl ⟨at_, name, rfl⟩
  | _ => exact Or.inr nofun

/-- a call whose callee is no name evaluates the callee first -/
theorem evaluate_call (invoke : Invoke) (s : Scope) (span : Span) {callee : Expr} (args : List Expr)
    (h : ∀ at_ name, callee ≠ .var at_ name) :
    evaluate invoke s (.call span callee args) = (do
      let v ← evaluate invoke s callee
      let f ← Eval.located callee.span (Eval.lift (Scope.callable v))
      let vs ← evaluateAll invoke s args
      Eval.located span (f.callWith invoke vs)) := by
  cases callee with
  | var at_ name => exact (h at_ name rfl).elim
  | _ => simp only [evaluate]

mutual

theorem leads_eval {calls : Nat} (hbody : ∀ m, calls = m + 1 → Follows m) (s : Scope) :
    ∀ (e : Expr) (fs : List Frame) (d id : Nat), calls + d = maxCalls →
      Leads ⟨.eval s e, fs, d, id⟩ fs d (evaluate (callClosure calls) s e id) .value
  | .integer _ _, fs, d, id, _ => by
    simp only [evaluate]
    exact Reaches.step rfl (Reaches.refl _)
  | .float _ _, fs, d, id, _ => by
    simp only [evaluate]
    exact Reaches.step rfl (Reaches.refl _)
  | .var span name, fs, d, id, _ => by
    simp only [evaluate]
    exact leads_settle span _ rfl
  | .unary span op e, fs, d, id, hd => by
    simp only [evaluate]
    refine Leads.step rfl (Leads.under rfl (leads_eval hbody s e (.unary span op :: fs) d id hd) ?_)
    intro v id'
    exact leads_settle span _ rfl
  | .binary span op lhs rhs, fs, d, id, hd => by
    simp only [evaluate]
    refine Leads.step rfl (Leads.under rfl (leads_eval hbody s lhs (.left s span op rhs :: fs) d id hd) ?_)
    intro l id'
    refine Leads.step rfl (Leads.under rfl (leads_eval hbody s rhs (.right span op l :: fs) d id' hd) ?_)
    intro r id''
    exact leads_settle span _ rfl
  | .call span callee args, fs, d, id, hd => by
    have hcall : ∀ (f : FunctionValue) (id' : Nat), Leads ⟨.collect s span f [] args, fs, d, id'⟩ fs d
        ((do
          let vs ← evaluateAll (callClosure calls) s args
          Eval.located span (f.callWith (callClosure calls) vs)) id') .value := by
      intro f id'
      refine (leads_evalAll hbody s span f args [] fs d id' hd).bind _ ?_
      intro vs id''
      exact leads_apply hbody span f vs fs d id'' hd
    rcases callee_cases callee with ⟨at_, name, rfl⟩ | hother
    · simp only [evaluate]
      refine Leads.bind (fun f => .collect s span f [] args) ?_ hcall
      cases hc : s.callee name with
      | ok f => exact Reaches.step (by simp only [State.step, State.enter, hc]) (Reaches.refl _)
      | error e => exact ⟨id, Reaches.step (by simp only [State.step, State.enter, hc]) (Reaches.refl _)⟩
    · rw [evaluate_call _ s span args hother]
      have hin : State.step ⟨.eval s (.call span callee args), fs, d, id⟩ =
          some ⟨.eval s callee, .callee s span callee.span args :: fs, d, id⟩ := by
        cases callee <;> first | rfl | exact (hother _ _ rfl).elim
      refine Leads.step hin (Leads.under rfl (leads_eval hbody s callee _ d id hd) ?_)
      intro v id'
      refine Leads.bind (fun f => .collect s span f [] args) ?_ hcall
      cases hc : Scope.callable v with
      | ok f => exact Reaches.step (by simp only [State.step, State.give, hc]) (Reaches.refl _)
      | error e => exact ⟨id', Reaches.step (by simp only [State.step, State.give, hc]) (Reaches.refl _)⟩
  | .lambda _ params body, fs, d, id, _ => by
    simp only [evaluate]
    exact Reaches.step rfl (Reaches.refl _)

theorem leads_evalAll {calls : Nat} (hbody : ∀ m, calls = m + 1 → Follows m) (s : Scope) (span : Span)
    (f : FunctionValue) : ∀ (es : List Expr) (known : List Value) (fs : List Frame) (d id : Nat), calls + d = maxCalls →
      Leads ⟨.collect s span f known es, fs, d, id⟩ fs d (evaluateAll (callClosure calls) s es id)
        fun vs => .apply span f (known ++ vs)
  | [], known, fs, d, id, _ => by
    simp only [evaluateAll]
    exact Reaches.step (by simp [State.step]) (Reaches.refl _)
  | e :: es, known, fs, d, id, hd => by
    simp only [evaluateAll]
    refine Leads.step rfl (Leads.under rfl (leads_eval hbody s e (.argument s span f known es :: fs) d id hd) ?_)
    intro v id'
    refine Leads.step rfl ((leads_evalAll hbody s span f es (known ++ [v]) fs d id' hd).bind _ ?_)
    intro vs id''
    show Reaches ⟨.apply span f (known ++ [v] ++ vs), fs, d, id''⟩ ⟨.apply span f (known ++ v :: vs), fs, d, id''⟩
    rw [List.append_assoc, List.singleton_append]
    exact Reaches.refl _

end

theorem follows (calls : Nat) : Follows calls := by
  induction calls with
  | zero => exact fun s e fs d id hd => leads_eval (fun m h => absurd h (Nat.succ_ne_zero m).symm) s e fs d id hd
  | succ calls ih =>
    intro s e fs d id hd
    exact leads_eval (fun m h => Nat.succ.inj h ▸ ih) s e fs d id hd

/-- **The machine follows the evaluator.** From an expression on top of any frames, with `d` active calls, it comes back
to these frames with `d` active calls and with the value or the error of `evaluate`. -/
theorem leads_evaluate (s : Scope) (e : Expr) (fs : List Frame) (d id : Nat) (hd : d ≤ maxCalls) :
    Leads ⟨.eval s e, fs, d, id⟩ fs d (evaluate (callClosure (maxCalls - d)) s e id) .value :=
  follows (maxCalls - d) s e fs d id (Nat.sub_add_cancel hd)

/-! ## Main result -/

/-- a machine that has stopped stays as it is -/
theorem after_of_stopped {st : State} (h : st.step = none) (k : Nat) : st.after k = st := by
  cases k with
  | zero => rfl
  | succ k => simp only [State.after, h]

theorem after_add (j k : Nat) (st : State) : st.after (j + k) = (st.after j).after k := by
  induction j generalizing st with
  | zero => rw [Nat.zero_add, State.after]
  | succ j ih =>
    rw [Nat.succ_add, State.after, State.after]
    split
    · next h => exact (after_of_stopped h k).symm
    · exact ih _

theorem after_succ (j : Nat) {st st' : State} (h : (st.after j).step = some st') : st.after (j + 1) = st' := by
  rw [after_add]
  simp only [State.after, h]

/-- what a machine in a state does next with a call of a script function: enter it, or refuse it at the limit -/
def Entering (st next : State) : Prop :=
  ∀ span f args c, st.control = .apply span f args → f.body = .script c → f.arity.accepts args.length = true →
    (st.active < maxCalls → next.active = st.active + 1 ∧ next.frames = .body span :: st.frames ∧
      next.control = .eval ⟨c.params, args, c.captured, c.registry⟩ c.body) ∧
    (st.active = maxCalls → next = { st with control := .failure ⟨.recursionLimit maxCalls, span⟩ })

theorem entering_after (st : State) (j : Nat) : Entering (st.after j) (st.after (j + 1)) := by
  intro span f args c hc hf harity
  have hstep : (st.after j).step = some ((st.after j).call span f args) := by simp only [State.step, hc]
  rw [after_succ j hstep]
  constructor
  · intro hlt
    simp only [State.call, harity, hf, if_true, if_pos hlt, and_self]
  · intro heq
    simp only [State.call, harity, hf, if_true, heq, Nat.lt_irrefl, if_false]

/-- The machine stops with the outcome of `evaluate`, and with as many active calls as it had. -/
theorem evaluate_stops (s : Scope) (e : Expr) (d id : Nat) (hd : d ≤ maxCalls) :
    ∃ k, let last := (State.start s e d id).after k
      last.step = none ∧ last.outcome = some (evaluate (callClosure (maxCalls - d)) s e id) ∧ last.active = d := by
  have h := leads_evaluate s e [] d id hd
  cases hr : evaluate (callClosure (maxCalls - d)) s e id with
  | ok p =>
    rw [hr] at h
    obtain ⟨k, hk⟩ := Reaches.exists_after h
    exact ⟨k, by rw [State.start, hk]; exact ⟨rfl, rfl, rfl⟩⟩
  | error f =>
    rw [hr] at h
    obtain ⟨id', h⟩ := h
    obtain ⟨k, hk⟩ := h.exists_after
    exact ⟨k, by rw [State.start, hk]; exact ⟨rfl, rfl, rfl⟩⟩

/-- A machine that stops does so in one state. -/
theorem stopped_unique {st : State} {j k : Nat} (hj : (st.after j).step = none) (hk : (st.after k).step = none) :
    st.after j = st.after k := by
  rcases Nat.le_total j k with hle | hle
  · obtain ⟨m, rfl⟩ := Nat.exists_eq_add_of_le hle
    rw [after_add, after_of_stopped hj]
  · obtain ⟨m, rfl⟩ := Nat.exists_eq_add_of_le hle
    rw [after_add, after_of_stopped hk]

/-- **Evaluation stops within the call limit.** Started with `d` active calls, the machine has the outcome of `evaluate`
after finitely many steps, and `d` calls are active again. On the way at least `d` and at most `maxCalls` calls are
active, one for each body on the stack above the first `d`. A script function is entered below the limit; at the limit
its call is the error `recursionLimit maxCalls`. -/
theorem evaluation_stops (s : Scope) (e : Expr) (d id : Nat) (hd : d ≤ maxCalls) :
    (∃ k, let last := (State.start s e d id).after k
      last.step = none ∧ last.outcome = some (evaluate (callClosure (maxCalls - d)) s e id) ∧ last.active = d) ∧
    ∀ j, let st := (State.start s e d id).after j
      st.active = d + st.bodies ∧ st.active ≤ maxCalls ∧ Entering st ((State.start s e d id).after (j + 1)) := by
  refine ⟨evaluate_stops s e d id hd, fun j => ?_⟩
  have hb : Balanced d ((State.start s e d id).after j) := after_balanced j ⟨rfl, hd⟩
  exact ⟨hb.balance, hb.limit, entering_after _ j⟩

/-! ## Witness: a function applied to itself -/

/-- the closure of `fn(f) => f(f)` -/
def selfClosure : Closure := ⟨["f"], .call ⟨12, 16⟩ (.var ⟨12, 13⟩ "f") [.var ⟨14, 15⟩ "f"], .empty, .empty⟩

/-- `fn(f) => f(f)` as a value -/
def selfApply : FunctionValue := ⟨none, 0, .script selfClosure, none⟩

/-- a table that binds it to `w` -/
def selfScope : Scope := .global (Bindings.empty.set "w" (.function selfApply)) .empty

/-- `w(w)` -/
def selfCall : Expr := .call ⟨17, 21⟩ (.var ⟨17, 18⟩ "w") [.var ⟨19, 20⟩ "w"]

/-- However many calls may become active, a function applied to itself uses them up. -/
theorem callClosure_self (calls id : Nat) :
    callClosure calls selfClosure [.function selfApply] id = .error (.recursionLimit maxCalls) := by
  induction calls generalizing id with
  | zero => rfl
  | succ calls ih =>
    have hcallee : Scope.callee ⟨["f"], [.function selfApply], .empty, .empty⟩ "f" = .ok selfApply := by rfl
    have hlookup : Scope.lookup ⟨["f"], [.function selfApply], .empty, .empty⟩ "f" = .ok (.function selfApply) := by rfl
    have hcall : FunctionValue.callWith (callClosure calls) selfApply [.function selfApply] =
        callClosure calls selfClosure [.function selfApply] := rfl
    simp only [callClosure, Eval.unlocated, selfClosure, evaluate, evaluateAll, bind_apply, Eval.located, Eval.lift,
      hcallee, hlookup]
    simp only [pure_apply, hcall, ih]

theorem evaluate_selfCall (calls id : Nat) :
    evaluate (callClosure calls) selfScope selfCall id = .error ⟨.recursionLimit maxCalls, ⟨17, 21⟩⟩ := by
  have hcallee : selfScope.callee "w" = .ok selfApply := by rfl
  have hlookup : selfScope.lookup "w" = .ok (.function selfApply) := by rfl
  have hcall : FunctionValue.callWith (callClosure calls) selfApply [.function selfApply] =
      callClosure calls selfClosure [.function selfApply] := rfl
  simp only [selfCall, evaluate, evaluateAll, bind_apply, Eval.located, Eval.lift, hcallee, hlookup]
  simp only [pure_apply, hcall, callClosure_self]

/-- `w(w)` stops with the error of the call limit, and no call is left active. -/
theorem selfCall_stops :
    0 ≤ maxCalls ∧
    (∃ k, let last := (State.start selfScope selfCall 0 1).after k
      last.step = none ∧ last.outcome = some (.error ⟨.recursionLimit maxCalls, ⟨17, 21⟩⟩) ∧ last.active = 0) ∧
    ∀ j, let st := (State.start selfScope selfCall 0 1).after j
      st.active = 0 + st.bodies ∧ st.active ≤ maxCalls ∧ Entering st ((State.start selfScope selfCall 0 1).after (j + 1)) := by
  have h := evaluation_stops selfScope selfCall 0 1 (Nat.zero_le _)
  rw [evaluate_selfCall] at h
  exact ⟨Nat.zero_le _, h⟩

end CurveScript.CallStack
