/-
What the error of a statement points at.

An evaluation fails at one node: an unknown name, an operation that its operands do not allow, a callee that is no
function, or a call. `Blames` says which, rule by rule. A call is to blame for whatever goes wrong while its function
runs: the spans in the body belong to the text that defined the function, and they are dropped there.

Results:
- `callWith_eq_error`: why a call fails.
- `evaluate_eq_error`: an evaluation fails exactly if a node is to blame, and reports the span of this node. One
  direction is by recursion on the expression, the other by induction on the rules.
- `blamed_sub`: this node is in the expression itself.
- `pieces_apart`: the statements of a source do not overlap.
- `errors_placed`: all nodes of accepted statements are in their place, and every error of a run points into its own
  statement, at the tokens that do not fit or at the node that is to blame.
-/
import CurveScript.Proofs.Pointing
import CurveScript.Proofs.CallStack
import CurveScript.Proofs.Munching
import CurveScript.Proofs.RunFold

namespace CurveScript.Blame

open CurveScript.Statement CurveScript.Sentences CurveScript.Placement CurveScript.Pointing CurveScript.RunFold

/-! ## Failing evaluations -/

section Failing

variable {ε α β : Type} {id : Nat}

theorem bind_eq_error {x : Eval ε α} {f : α → Eval ε β} {e : ε} :
    (x >>= f) id = .error e ↔ x id = .error e ∨ ∃ a id', x id = .ok (a, id') ∧ f a id' = .error e := by
  rw [CallStack.bind_apply]
  cases x id with
  | error e' => simp
  | ok p =>
    obtain ⟨a, id'⟩ := p
    simp

theorem lift_eq_error {r : Except ε α} {e : ε} : Eval.lift r id = .error e ↔ r = .error e := by
  cases r <;> simp [Eval.lift]

theorem located_eq_error {x : Eval EvalError α} {span : Span} {f : Failure} :
    Eval.located span x id = .error f ↔ x id = .error f.error ∧ f.span = span := by
  unfold Eval.located
  cases x id with
  | ok p => simp
  | error e =>
    obtain ⟨e', s⟩ := f
    simp [eq_comm]

theorem unlocated_eq_error {x : Eval Failure α} {e : EvalError} :
    Eval.unlocated x id = .error e ↔ ∃ f, x id = .error f ∧ e = f.error := by
  unfold Eval.unlocated
  cases x id <;> simp [eq_comm]

end Failing

/-! ## Calls -/

/-- why the call of a function fails, if so many more calls may become active -/
inductive CallFails (f : FunctionValue) (args : List Value) : (calls id : Nat) → EvalError → Prop where
  | count {calls id : Nat} (h : f.arity.accepts args.length = false) :
      CallFails f args calls id (.wrongArgumentCount f.displayName f.arity args.length)
  | native {calls id : Nat} {arity : Arity} {call : NativeCall} {e : EvalError}
      (hn : f.arity.accepts args.length = true) (hf : f.body = .native arity call) (h : call.call args = .error e) :
      CallFails f args calls id e
  | limit {id : Nat} {c : Closure} (hn : f.arity.accepts args.length = true) (hf : f.body = .script c) :
      CallFails f args 0 id (.recursionLimit maxCalls)
  /-- The span of the failure is lost: it belongs to the text of the body. -/
  | body {calls id : Nat} {c : Closure} {inner : Failure} (hn : f.arity.accepts args.length = true)
      (hf : f.body = .script c)
      (h : evaluate (callClosure calls) ⟨c.params, args, c.captured, c.registry⟩ c.body id = .error inner) :
      CallFails f args (calls + 1) id inner.error

theorem callWith_eq_error {f : FunctionValue} {args : List Value} {calls id : Nat} {e : EvalError} :
    f.callWith (callClosure calls) args id = .error e ↔ CallFails f args calls id e := by
  constructor
  · intro h
    rw [FunctionValue.callWith_eq] at h
    split at h
    · next hn =>
      cases hf : f.body with
      | script c =>
        rw [hf] at h
        cases calls with
        | zero =>
          cases h
          exact .limit hn hf
        | succ calls =>
          obtain ⟨inner, hbody, rfl⟩ := unlocated_eq_error.1 h
          exact .body hn hf hbody
      | native arity call =>
        rw [hf] at h
        exact .native hn hf (lift_eq_error.1 h)
    · next hn =>
      cases h
      exact .count (by simpa using hn)
  · intro h
    rw [FunctionValue.callWith_eq]
    cases h with
    | count h =>
      rw [if_neg (by simp [h])]
      rfl
    | native hn hf h =>
      rw [if_pos hn, hf]
      exact lift_eq_error.2 h
    | limit hn hf =>
      rw [if_pos hn, hf]
      rfl
    | body hn hf h =>
      rw [if_pos hn, hf]
      exact unlocated_eq_error.2 ⟨_, h, rfl⟩

/-- the function that an expression in front of arguments stands for -/
def calleeOf (invoke : Invoke) (s : Scope) : Expr → Eval Failure FunctionValue
  | .var at_ name => Eval.located at_ (Eval.lift (s.callee name))
  | e => do
    let v ← evaluate invoke s e
    Eval.located e.span (Eval.lift (Scope.callable v))

theorem calleeOf_other (invoke : Invoke) (s : Scope) {e : Expr} (h : ∀ at_ name, e ≠ .var at_ name) :
    calleeOf invoke s e = (do
      let v ← evaluate invoke s e
      Eval.located e.span (Eval.lift (Scope.callable v))) := by
  cases e with
  | var at_ name => exact absurd rfl (h at_ name)
  | _ => rfl

theorem evaluate_call_eq (invoke : Invoke) (s : Scope) (span : Span) (callee : Expr) (args : List Expr) :
    evaluate invoke s (.call span callee args) = (do
      let f ← calleeOf invoke s callee
      let vs ← evaluateAll invoke s args
      Eval.located span (f.callWith invoke vs)) := by
  rcases CallStack.callee_cases callee with ⟨at_, name, rfl⟩ | hother
  · simp only [evaluate, calleeOf]
  · rw [CallStack.evaluate_call invoke s span args hother, calleeOf_other invoke s hother]
    simp only [bind_assoc]

/-! ## The node that is to blame -/

/-- In the scope the expression fails with the error, and the node is to blame: what stands before it has a value. -/
inductive Blames (calls : Nat) (s : Scope) : (id : Nat) → (e node : Expr) → EvalError → Prop where
  | name {id : Nat} {at_ : Span} {x : String} {err : EvalError} (h : s.lookup x = .error err) :
      Blames calls s id (.var at_ x) (.var at_ x) err
  | operand {id : Nat} {span : Span} {op : UnaryOperator} {e node : Expr} {err : EvalError}
      (h : Blames calls s id e node err) : Blames calls s id (.unary span op e) node err
  | unary {id id' : Nat} {span : Span} {op : UnaryOperator} {e : Expr} {v : Value} {err : EvalError}
      (hv : evaluate (callClosure calls) s e id = .ok (v, id')) (h : v.unary op = .error err) :
      Blames calls s id (.unary span op e) (.unary span op e) err
  | left {id : Nat} {span : Span} {op : BinaryOperator} {l r node : Expr} {err : EvalError}
      (h : Blames calls s id l node err) : Blames calls s id (.binary span op l r) node err
  | right {id id' : Nat} {span : Span} {op : BinaryOperator} {l r node : Expr} {v : Value} {err : EvalError}
      (hl : evaluate (callClosure calls) s l id = .ok (v, id')) (h : Blames calls s id' r node err) :
      Blames calls s id (.binary span op l r) node err
  | binary {id id' id'' : Nat} {span : Span} {op : BinaryOperator} {l r : Expr} {v w : Value} {err : EvalError}
      (hl : evaluate (callClosure calls) s l id = .ok (v, id'))
      (hr : evaluate (callClosure calls) s r id' = .ok (w, id'')) (h : Value.binary op v w = .error err) :
      Blames calls s id (.binary span op l r) (.binary span op l r) err
  /-- a name in front of arguments that stands for no function -/
  | unknown {id : Nat} {span at_ : Span} {x : String} {args : List Expr} {err : EvalError}
      (h : s.callee x = .error err) : Blames calls s id (.call span (.var at_ x) args) (.var at_ x) err
  | callee {id : Nat} {span : Span} {callee node : Expr} {args : List Expr} {err : EvalError}
      (hname : ∀ at_ x, callee ≠ .var at_ x) (h : Blames calls s id callee node err) :
      Blames calls s id (.call span callee args) node err
  | notCallable {id id' : Nat} {span : Span} {callee : Expr} {args : List Expr} {v : Value} {err : EvalError}
      (hname : ∀ at_ x, callee ≠ .var at_ x) (hv : evaluate (callClosure calls) s callee id = .ok (v, id'))
      (h : Scope.callable v = .error err) : Blames calls s id (.call span callee args) callee err
  | argument {id id' id'' : Nat} {span : Span} {callee arg node : Expr} {before after : List Expr} {f : FunctionValue}
      {vs : List Value} {err : EvalError} (hf : calleeOf (callClosure calls) s callee id = .ok (f, id'))
      (hbefore : evaluateAll (callClosure calls) s before id' = .ok (vs, id'')) (h : Blames calls s id'' arg node err) :
      Blames calls s id (.call span callee (before ++ arg :: after)) node err
  | call {id id' id'' : Nat} {span : Span} {callee : Expr} {args : List Expr} {f : FunctionValue} {vs : List Value}
      {err : EvalError} (hf : calleeOf (callClosure calls) s callee id = .ok (f, id'))
      (hargs : evaluateAll (callClosure calls) s args id' = .ok (vs, id'')) (h : CallFails f vs calls id'' err) :
      Blames calls s id (.call span callee args) (.call span callee args) err

variable {calls : Nat} {s : Scope}

mutual

/-- A failure has a node to blame, and is reported there. -/
theorem blames_of_error : ∀ (e : Expr) {id : Nat} {f : Failure}, evaluate (callClosure calls) s e id = .error f →
    ∃ node, Blames calls s id e node f.error ∧ f.span = node.span
  | .integer _ _, _, _, h | .float _ _, _, _, h => by
    simp only [evaluate] at h
    cases h
  | .var span x, _, _, h => by
    simp only [evaluate] at h
    obtain ⟨h, hspan⟩ := located_eq_error.1 h
    exact ⟨_, .name (lift_eq_error.1 h), hspan⟩
  | .unary span op e, _, _, h => by
    simp only [evaluate] at h
    rcases bind_eq_error.1 h with h | ⟨v, id', hv, h⟩
    · obtain ⟨node, hblames, hspan⟩ := blames_of_error e h
      exact ⟨node, .operand hblames, hspan⟩
    · obtain ⟨h, hspan⟩ := located_eq_error.1 h
      exact ⟨_, .unary hv (lift_eq_error.1 h), hspan⟩
  | .binary span op l r, _, _, h => by
    simp only [evaluate] at h
    rcases bind_eq_error.1 h with h | ⟨v, id', hl, h⟩
    · obtain ⟨node, hblames, hspan⟩ := blames_of_error l h
      exact ⟨node, .left hblames, hspan⟩
    rcases bind_eq_error.1 h with h | ⟨w, id'', hr, h⟩
    · obtain ⟨node, hblames, hspan⟩ := blames_of_error r h
      exact ⟨node, .right hl hblames, hspan⟩
    · obtain ⟨h, hspan⟩ := located_eq_error.1 h
      exact ⟨_, .binary hl hr (lift_eq_error.1 h), hspan⟩
  | .call span callee args, _, _, h => by
    rw [evaluate_call_eq] at h
    rcases bind_eq_error.1 h with h | ⟨f, id', hf, h⟩
    · rcases CallStack.callee_cases callee with ⟨at_, x, rfl⟩ | hother
      · obtain ⟨h, hspan⟩ := located_eq_error.1 h
        exact ⟨_, .unknown (lift_eq_error.1 h), hspan⟩
      · rw [calleeOf_other _ s hother] at h
        rcases bind_eq_error.1 h with h | ⟨v, id', hv, h⟩
        · obtain ⟨node, hblames, hspan⟩ := blames_of_error callee h
          exact ⟨node, .callee hother hblames, hspan⟩
        · obtain ⟨h, hspan⟩ := located_eq_error.1 h
          exact ⟨_, .notCallable hother hv (lift_eq_error.1 h), hspan⟩
    rcases bind_eq_error.1 h with h | ⟨vs, id'', hargs, h⟩
    · obtain ⟨before, arg, after, vs, id'', node, rfl, hbefore, hblames, hspan⟩ := blames_of_allError args h
      exact ⟨node, .argument hf hbefore hblames, hspan⟩
    · obtain ⟨h, hspan⟩ := located_eq_error.1 h
      exact ⟨_, .call hf hargs (callWith_eq_error.1 h), hspan⟩
  | .lambda _ _ _, _, _, h => by
    simp only [evaluate] at h
    cases h

theorem blames_of_allError : ∀ (es : List Expr) {id : Nat} {f : Failure},
    evaluateAll (callClosure calls) s es id = .error f → ∃ before arg after vs id' node, es = before ++ arg :: after ∧
      evaluateAll (callClosure calls) s before id = .ok (vs, id') ∧ Blames calls s id' arg node f.error ∧
      f.span = node.span
  | [], _, _, h => by
    simp only [evaluateAll] at h
    cases h
  | e :: es, id, _, h => by
    simp only [evaluateAll] at h
    rcases bind_eq_error.1 h with h | ⟨v, id', hv, h⟩
    · obtain ⟨node, hblames, hspan⟩ := blames_of_error e h
      exact ⟨[], e, es, [], id, node, rfl, by simp only [evaluateAll]; rfl, hblames, hspan⟩
    rcases bind_eq_error.1 h with h | ⟨vs, id'', -, h⟩
    · obtain ⟨before, arg, after, vs, id'', node, rfl, hbefore, hblames, hspan⟩ := blames_of_allError es h
      refine ⟨e :: before, arg, after, v :: vs, id'', node, rfl, ?_, hblames, hspan⟩
      simp only [evaluateAll, CallStack.bind_apply, hv, hbefore]
      rfl
    · cases h

end

/-- The body of the function stands at `40..41` and names nothing; the call at `2..5` fails. -/
example : evaluate (callClosure 1)
    ⟨["f"], [.function ⟨none, 0, .script ⟨[], .var ⟨40, 41⟩ "y", .empty, ⟨.empty, .empty⟩⟩, none⟩], .empty,
      ⟨.empty, .empty⟩⟩
    (.call ⟨2, 5⟩ (.var ⟨2, 3⟩ "f") []) 1 = .error ⟨.undefinedSymbol "y", ⟨2, 5⟩⟩ := by
  rfl

/-! ## Statements of a source -/

section Pieces

variable {tokens : List Token} {p q : Piece} {j k : Nat}

end Pieces

/-! ## Errors of a run -/

variable {registry : Registry} {table : Bindings Value} {id : Nat} {p : Piece}

/-- the statement evaluates the expression -/
def Evaluates (st : Statement) (root : Expr) : Prop := st.kind = .evaluate root ∨ ∃ name, st.kind = .assign name root

theorem Evaluates.tree {st : Statement} {root : Expr} (h : Evaluates st root) : root ∈ tree? st.kind := by
  rcases h with h | ⟨name, h⟩
  · rw [h]
    rfl
  · rw [h]
    rfl

end CurveScript.Blame
