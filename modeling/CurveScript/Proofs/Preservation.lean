/-
Traits that evaluation passes on.

A trait is a property of values, with what it asks of a scope and of an expression. Operators, native functions and the
look-up of names have to keep it, a function has to carry it into its body, and a lambda out of its scope. Then
everything that an expression gives has the trait, however deep the calls are that it makes.

Results:
- `Yields`, `Gives`: what a result, or the result of an evaluation, has unless it is a failure.
- `evaluate_gives`, `callClosure_gives`: expressions and calls, for any trait. The induction is on the calls that may
  still become active, then on the expression.
- `execute_keeps`: statements; runs follow by `take_keeps`.
-/
import CurveScript.Proofs.CallStack
import CurveScript.Proofs.Invariants
import CurveScript.Proofs.Placement

namespace CurveScript.Preservation

/-! ## Results -/

section Results

variable {ε α β : Type} {A : α → Prop} {B : β → Prop}

/-- a result that has the property unless it is a failure -/
def Yields (A : α → Prop) (r : Except ε α) : Prop := ∀ a, r = .ok a → A a

theorem yields_ok {a : α} (h : A a) : Yields A (.ok a : Except ε α) := by
  intro b hb
  cases hb
  exact h

theorem yields_error (e : ε) : Yields A (.error e : Except ε α) := nofun

/-- an evaluation whose results have the property, from whatever identity it starts -/
def Gives (A : α → Prop) (x : Eval ε α) : Prop := ∀ id, Yields (fun p => A p.1) (x id)

theorem gives_pure {a : α} (h : A a) : Gives A (pure a : Eval ε α) := fun _ => yields_ok h

theorem gives_fail (e : ε) : Gives A (Eval.fail e : Eval ε α) := fun _ => yields_error e

theorem gives_bind {x : Eval ε α} {f : α → Eval ε β} (hx : Gives A x) (hf : ∀ a, A a → Gives B (f a)) :
    Gives B (x >>= f) := by
  intro id
  have hfirst := hx id
  rw [CallStack.bind_apply]
  generalize x id = r at hfirst ⊢
  cases r with
  | error e => exact yields_error e
  | ok p => exact hf p.1 (hfirst p rfl) p.2

theorem gives_lift {r : Except ε α} (h : Yields A r) : Gives A (Eval.lift r) := by
  intro id
  cases r with
  | error e => exact yields_error e
  | ok a => exact yields_ok (h a rfl)

theorem gives_located {x : Eval EvalError α} (span : Span) (h : Gives A x) : Gives A (Eval.located span x) := by
  intro id
  have hx := h id
  unfold Eval.located
  generalize x id = r at hx ⊢
  cases r with
  | error e => exact yields_error _
  | ok p => exact yields_ok (hx p rfl)

theorem gives_unlocated {x : Eval Failure α} (h : Gives A x) : Gives A (Eval.unlocated x) := by
  intro id
  have hx := h id
  unfold Eval.unlocated
  generalize x id = r at hx ⊢
  cases r with
  | error e => exact yields_error _
  | ok p => exact yields_ok (hx p rfl)

end Results

/-! ## Traits -/

/-- a property of values that evaluation passes on, and what it asks of scopes and expressions -/
structure Trait where
  value : Value → Prop
  scope : Scope → Prop
  expression : Expr → Prop
  child : ∀ {e d}, expression e → d ∈ Placement.children e → expression d
  integer : ∀ n, value (.integer n)
  float : ∀ {span x}, expression (.float span x) → value (.float x)
  unit : value .unit
  unary : ∀ op {v}, value v → Yields value (v.unary op)
  binary : ∀ op v w, Yields value (Value.binary op v w)
  lookup : ∀ {s}, scope s → ∀ x, Yields value (s.lookup x)
  callee : ∀ {s}, scope s → ∀ x, Yields (fun f => value (.function f)) (s.callee x)
  callable : ∀ {v}, value v → Yields (fun f => value (.function f)) (Scope.callable v)
  native : ∀ {f arity call args}, value (.function f) → f.body = .native arity call → (∀ v ∈ args, value v) →
    Yields value (call.call args)
  /-- A function carries the trait into its body. -/
  body : ∀ {f c args}, value (.function f) → f.body = .script c → (∀ v ∈ args, value v) →
    scope ⟨c.params, args, c.captured, c.registry⟩ ∧ expression c.body
  /-- A function takes the trait over from where it is made. -/
  made : ∀ {s} name id params {body}, scope s → expression body →
    value (.function ⟨name, id, .script ⟨params, body, s.captured, s.registry⟩, none⟩)

namespace Trait

/-- a function with the trait -/
abbrev function (T : Trait) (f : FunctionValue) : Prop := T.value (.function f)

/-- a way to call closures that gives values with the trait for a function and arguments with it -/
def Invokes (T : Trait) (invoke : Invoke) : Prop :=
  ∀ f c args, T.function f → f.body = .script c → (∀ v ∈ args, T.value v) → Gives T.value (invoke c args)

variable {T : Trait} {invoke : Invoke} {s : Scope}

theorem callWith_gives (hinvoke : T.Invokes invoke) {f : FunctionValue} (hf : T.function f) {args : List Value}
    (hargs : ∀ v ∈ args, T.value v) : Gives T.value (f.callWith invoke args) := by
  rw [FunctionValue.callWith_eq]
  split
  · split
    · next c hc => exact hinvoke f c args hf hc hargs
    · next hbody => exact gives_lift (T.native hf hbody hargs)
  · exact gives_fail _

theorem makeFunction_gives {ε : Type} (hs : T.scope s) (name : Option String) (params : List String) {body : Expr}
    (hbody : T.expression body) : Gives (ε := ε) T.function (s.makeFunction name params body) :=
  fun id => yields_ok (T.made name id params hs hbody)

mutual

/-- **Expressions** with the trait, in a scope with the trait. -/
theorem evaluate_gives (hinvoke : T.Invokes invoke) (hs : T.scope s) :
    ∀ e : Expr, T.expression e → Gives T.value (evaluate invoke s e)
  | .integer _ n, _ => by
    simp only [evaluate]
    exact gives_pure (T.integer n)
  | .float _ x, he => by
    simp only [evaluate]
    exact gives_pure (T.float he)
  | .var span name, _ => by
    simp only [evaluate]
    exact gives_located span (gives_lift (T.lookup hs name))
  | .unary span op e, he => by
    simp only [evaluate]
    apply gives_bind (evaluate_gives hinvoke hs e (T.child he (by simp [Placement.children])))
    intro v hv
    exact gives_located span (gives_lift (T.unary op hv))
  | .binary span op l r, he => by
    simp only [evaluate]
    apply gives_bind (evaluate_gives hinvoke hs l (T.child he (by simp [Placement.children])))
    intro v _
    apply gives_bind (evaluate_gives hinvoke hs r (T.child he (by simp [Placement.children])))
    intro w _
    exact gives_located span (gives_lift (T.binary op v w))
  | .call span callee args, he => by
    have hcallee : T.expression callee := T.child he (by simp [Placement.children])
    have hargs : ∀ e ∈ args, T.expression e := fun e hmem => T.child he (by simp [Placement.children, hmem])
    have hrest : ∀ f, T.function f → Gives T.value (do
        let vs ← evaluateAll invoke s args
        Eval.located span (f.callWith invoke vs)) := by
      intro f hf
      apply gives_bind (evaluateAll_gives hinvoke hs args hargs)
      intro vs hvs
      exact gives_located span (callWith_gives hinvoke hf hvs)
    rcases CallStack.callee_cases callee with ⟨at_, name, rfl⟩ | hother
    · simp only [evaluate]
      exact gives_bind (gives_located at_ (gives_lift (T.callee hs name))) hrest
    · rw [CallStack.evaluate_call invoke s span args hother]
      apply gives_bind (evaluate_gives hinvoke hs callee hcallee)
      intro v hv
      exact gives_bind (gives_located callee.span (gives_lift (T.callable hv))) hrest
  | .lambda span params body, he => by
    simp only [evaluate]
    apply gives_bind (makeFunction_gives hs none params (T.child he (by simp [Placement.children])))
    intro f hf
    exact gives_pure hf

theorem evaluateAll_gives (hinvoke : T.Invokes invoke) (hs : T.scope s) :
    ∀ es : List Expr, (∀ e ∈ es, T.expression e) → Gives (fun vs => ∀ v ∈ vs, T.value v) (evaluateAll invoke s es)
  | [], _ => by
    simp only [evaluateAll]
    exact gives_pure nofun
  | e :: es, hes => by
    obtain ⟨he, hrest⟩ := List.forall_mem_cons.1 hes
    simp only [evaluateAll]
    apply gives_bind (evaluate_gives hinvoke hs e he)
    intro v hv
    apply gives_bind (evaluateAll_gives hinvoke hs es hrest)
    intro vs hvs
    exact gives_pure (List.forall_mem_cons.2 ⟨hv, hvs⟩)

end

/-- **Calls**, with however many more calls allowed. -/
theorem callClosure_gives (calls : Nat) : T.Invokes (callClosure calls) := by
  induction calls with
  | zero => exact fun _ _ _ _ _ _ => gives_fail _
  | succ calls ih =>
    intro f c args hf hc hargs
    obtain ⟨hscope, hbody⟩ := T.body hf hc hargs
    exact gives_unlocated (evaluate_gives ih hscope c.body hbody)

/-! ## Statements -/

/-- a table whose bindings have the trait -/
def table (T : Trait) (t : Bindings Value) : Prop := ∀ x v, t.get? x = some v → T.value v

theorem table_set {t : Bindings Value} (ht : T.table t) (name : String) {v : Value} (hv : T.value v) :
    T.table (t.set name v) := by
  intro x w hw
  rw [Bindings.get?_set] at hw
  split at hw
  · cases hw
    exact hv
  · exact ht x w hw

/-- **Statements** keep a table with the trait, and their values have it. -/
theorem execute_keeps {registry : Registry} {P : TokenKind → Prop} (hexpression : ∀ e : Expr, e.Over P → T.expression e)
    (hglobal : ∀ t, T.table t → T.scope (.global t registry)) :
    Invariants.StatementsKeep registry P T.table T.value := by
  intro kind t t' v id id' hkind ht hrun
  have hscope : T.scope (.global t registry) := hglobal t ht
  have hvalue : ∀ e : Expr, e.Over P → Gives T.value (evaluate (callClosure maxCalls) (.global t registry) e) :=
    fun e he => evaluate_gives (callClosure_gives maxCalls) hscope e (hexpression e he)
  cases kind with
  | empty =>
    cases hrun
    exact ⟨T.unit, ht⟩
  | evaluate e =>
    rw [RunFold.execute_evaluate] at hrun
    obtain ⟨p, hp, he⟩ := Readers.map_eq_ok hrun
    cases he
    exact ⟨hvalue e hkind id p hp, ht⟩
  | assign name e =>
    rw [RunFold.execute_assign] at hrun
    obtain ⟨p, hp, he⟩ := Readers.map_eq_ok hrun
    cases he
    exact ⟨T.unit, table_set ht name (hvalue e hkind.2 id p hp)⟩
  | define name params body =>
    cases hrun
    exact ⟨T.unit, table_set ht name (T.made (some name) id params hscope (hexpression body hkind.2.2))⟩

end Trait

end CurveScript.Preservation
