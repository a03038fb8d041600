/-
The limit on active calls cuts evaluations off and changes no value.

How many script calls are active already decides only whether a further one is refused. A refusal is an error, and an
error goes through operands, arguments and bodies up to the result, since nothing in the language catches one. So an
evaluation with fewer calls left either ends in the error of the limit or has the outcome of the one with more.

Results:
- `bind_cut`, `located_cut`, `unlocated_cut`: the error of the limit goes through whatever is done afterwards.
- `evaluate_cut`, `callClosure_cut`: expressions, and calls of closures. The induction is on the calls that may still
  become active in the first, then on the expression.
- `limit_cuts_off`: expressions with `d` and with `d'` active calls, and a function that is called from outside or in a
  script.
Witness: `deep_sample`, a function of a function that is sampled and called with all but two calls active.
-/
import CurveScript.Proofs.FreeNames

namespace CurveScript.Cutoff

open CurveScript.CallStack CurveScript.FreeNames CurveScript.Likeness

/-! ## Cutting off -/

/-- the error of an operation that says that the limit was reached -/
def Refused (e : EvalError) : Prop := e = .recursionLimit maxCalls

/-- the error of an expression that says that the limit was reached, wherever that was -/
def RefusedAt (f : Failure) : Prop := Refused f.error

/-- The first evaluation is the second, or ends with an error of the limit. -/
def Cut {ε α : Type} (limit : ε → Prop) (x y : Eval ε α) : Prop :=
  ∀ id, (∃ e, limit e ∧ x id = .error e) ∨ x id = y id

section Cut

variable {ε α β : Type} {limit : ε → Prop}

theorem cut_refl (x : Eval ε α) : Cut limit x x := fun _ => Or.inr rfl

theorem fail_cut {e : ε} (he : limit e) (y : Eval ε α) : Cut limit (Eval.fail e) y := fun _ => Or.inl ⟨e, he, rfl⟩

/-- An error of the limit stays the result, whatever was to follow. -/
theorem bind_cut {x y : Eval ε α} {f g : α → Eval ε β} (hx : Cut limit x y) (hf : ∀ a, Cut limit (f a) (g a)) :
    Cut limit (x >>= f) (y >>= g) := by
  intro id
  rw [bind_apply, bind_apply]
  rcases hx id with ⟨e, he, hxid⟩ | hxid
  · rw [hxid]
    exact Or.inl ⟨e, he, rfl⟩
  · rw [hxid]
    cases y id with
    | error e => exact Or.inr rfl
    | ok p => exact hf p.1 p.2

theorem located_cut (span : Span) {x y : Eval EvalError α} (hx : Cut Refused x y) :
    Cut RefusedAt (Eval.located span x) (Eval.located span y) := by
  intro id
  unfold Eval.located
  rcases hx id with ⟨e, he, hxid⟩ | hxid
  · rw [hxid]
    exact Or.inl ⟨⟨e, span⟩, he, rfl⟩
  · rw [hxid]
    exact Or.inr rfl

theorem unlocated_cut {x y : Eval Failure α} (hx : Cut RefusedAt x y) :
    Cut Refused (Eval.unlocated x) (Eval.unlocated y) := by
  intro id
  unfold Eval.unlocated
  rcases hx id with ⟨f, hf, hxid⟩ | hxid
  · rw [hxid]
    exact Or.inl ⟨f.error, hf, rfl⟩
  · rw [hxid]
    exact Or.inr rfl

/-- What is not cut off is equal. -/
theorem Cut.eq {x y : Eval ε α} (h : Cut limit x y) {id : Nat} (hlimit : ∀ e, limit e → x id ≠ .error e) :
    y id = x id := by
  rcases h id with ⟨e, he, hxid⟩ | hxid
  · exact absurd hxid (hlimit e he)
  · exact hxid.symm

end Cut

/-! ## Evaluation -/

/-- The first way to call closures is the second, cut off. -/
def InvokesCut (invoke invoke' : Invoke) : Prop := ∀ c args, Cut Refused (invoke c args) (invoke' c args)

section Evaluation

variable {invoke invoke' : Invoke}

theorem callWith_cut (h : InvokesCut invoke invoke') (f : FunctionValue) (args : List Value) :
    Cut Refused (f.callWith invoke args) (f.callWith invoke' args) := by
  rw [FunctionValue.callWith_eq, FunctionValue.callWith_eq]
  split
  · split
    · exact h _ args
    · exact cut_refl _
  · exact cut_refl _

mutual

/-- **Expressions.** -/
theorem evaluate_cut (h : InvokesCut invoke invoke') (s : Scope) :
    ∀ e : Expr, Cut RefusedAt (evaluate invoke s e) (evaluate invoke' s e)
  | .integer _ _ | .float _ _ | .var _ _ | .lambda _ _ _ => by
    simp only [evaluate]
    exact cut_refl _
  | .unary _ _ e => by
    simp only [evaluate]
    exact bind_cut (evaluate_cut h s e) fun _ => cut_refl _
  | .binary _ _ l r => by
    simp only [evaluate]
    apply bind_cut (evaluate_cut h s l)
    intro v
    exact bind_cut (evaluate_cut h s r) fun _ => cut_refl _
  | .call span callee args => by
    have hrest : ∀ f : FunctionValue, Cut RefusedAt
        (do let vs ← evaluateAll invoke s args
            Eval.located span (f.callWith invoke vs))
        (do let vs ← evaluateAll invoke' s args
            Eval.located span (f.callWith invoke' vs)) := by
      intro f
      apply bind_cut (evaluateAll_cut h s args)
      intro vs
      exact located_cut span (callWith_cut h f vs)
    rcases callee_cases callee with ⟨at_, name, rfl⟩ | hother
    · simp only [evaluate]
      exact bind_cut (cut_refl _) hrest
    · rw [evaluate_call invoke s span args hother, evaluate_call invoke' s span args hother]
      apply bind_cut (evaluate_cut h s callee)
      intro v
      exact bind_cut (cut_refl _) hrest

theorem evaluateAll_cut (h : InvokesCut invoke invoke') (s : Scope) :
    ∀ es : List Expr, Cut RefusedAt (evaluateAll invoke s es) (evaluateAll invoke' s es)
  | [] => by
    simp only [evaluateAll]
    exact cut_refl _
  | e :: es => by
    simp only [evaluateAll]
    apply bind_cut (evaluate_cut h s e)
    intro v
    exact bind_cut (evaluateAll_cut h s es) fun _ => cut_refl _

end

end Evaluation

/-- **Calls of closures**, with fewer and with more calls that may still become active. -/
theorem callClosure_cut {few many : Nat} (h : few ≤ many) : InvokesCut (callClosure few) (callClosure many) := by
  -- on the calls left in the first; the second has at least as many left in every body that the first enters
  induction few generalizing many with
  | zero =>
    have hrefused : Refused (.recursionLimit maxCalls) := rfl
    exact fun c args => fail_cut hrefused _
  | succ few ih =>
    obtain ⟨many, rfl⟩ : ∃ m, many = m + 1 := ⟨many - 1, by omega⟩
    intro c args
    exact unlocated_cut (evaluate_cut (ih (by omega)) _ c.body)

/-! ## Main result -/

/-- the machine stops with an outcome -/
def Stops (st : State) (r : Except Failure (Value × Nat)) : Prop :=
  ∃ k, (st.after k).step = none ∧ (st.after k).outcome = some r

theorem stops_iff {s : Scope} {e : Expr} {d id : Nat} (hd : d ≤ maxCalls) (r : Except Failure (Value × Nat)) :
    Stops (State.start s e d id) r ↔ r = evaluate (callClosure (maxCalls - d)) s e id := by
  obtain ⟨k, hstopped, houtcome, -⟩ := evaluate_stops s e d id hd
  constructor
  · rintro ⟨j, hj, hr⟩
    rw [stopped_unique hj hstopped, houtcome] at hr
    exact (Option.some.inj hr).symm
  · rintro rfl
    exact ⟨k, hstopped, houtcome⟩

/-- two outcomes of evaluations: the same error, or values that nothing tells apart but their identities -/
abbrev SameOutcome {ε : Type} : Except ε (Value × Nat) → Except ε (Value × Nat) → Prop :=
  Outcomes Eq fun p p' => Same p.1 p'.1

theorem evaluate_renumbered (s : Scope) (e : Expr) (calls id id' : Nat) :
    SameOutcome (evaluate (callClosure calls) s e id) (evaluate (callClosure calls) s e id') :=
  evaluate_same e ⟨fun _ _ => rfl, fun _ _ => rfl, fun _ _ => rfl⟩ s.params s.args calls id id'

theorem call_renumbered (f : FunctionValue) (args : List Value) (calls id id' : Nat) :
    SameOutcome (f.callWith (callClosure calls) args id) (f.callWith (callClosure calls) args id') := by
  have hargs : List.Forall₂ (Alike byFreeNames) args args := List.forall₂_same.2 fun v _ => alike_refl v
  exact (alike_bisimulation.call f f (alike_refl _) calls args args id id' hargs).mono (fun _ _ he => he)
    fun _ _ h => same_of_alike h

/-- **The limit only cuts off.** Let `d` be at most `d'`. An expression that is evaluated with `d'` active calls, and
does not end with the error of the limit, has the same outcome with `d` active calls: the same value with the same
identities, or the same error at the same span; from another counter of identities the outcome is the same up to them.
So it is for the machine, which counts the active calls one by one. And a function that is called with `d'` active calls,
and does not end with that error, has the same outcome when it is called from outside of any script function, as it is
when a graph is sampled. -/
theorem limit_cuts_off {d d' : Nat} (hd : d ≤ d') (hd' : d' ≤ maxCalls) :
    (∀ s e id, (∀ span, evaluate (callClosure (maxCalls - d')) s e id ≠ .error ⟨.recursionLimit maxCalls, span⟩) →
      evaluate (callClosure (maxCalls - d)) s e id = evaluate (callClosure (maxCalls - d')) s e id ∧
      ∀ other, SameOutcome (evaluate (callClosure (maxCalls - d)) s e other)
        (evaluate (callClosure (maxCalls - d')) s e id)) ∧
    (∀ s e id r, Stops (State.start s e d' id) r → (∀ span, r ≠ .error ⟨.recursionLimit maxCalls, span⟩) →
      Stops (State.start s e d id) r) ∧
    (∀ (f : FunctionValue) args id, f.callWith (callClosure (maxCalls - d')) args id ≠ .error (.recursionLimit maxCalls) →
      f.call args id = f.callWith (callClosure (maxCalls - d')) args id ∧
      ∀ other, SameOutcome (f.call args other) (f.callWith (callClosure (maxCalls - d')) args id)) ∧
    ∀ (g : Graph) x id,
      g.function.callWith (callClosure (maxCalls - d')) [.float x] id ≠ .error (.recursionLimit maxCalls) →
        g.invoke x id = g.function.callWith (callClosure (maxCalls - d')) [.float x] id ∧
        ∀ other, SameOutcome (g.invoke x other) (g.function.callWith (callClosure (maxCalls - d')) [.float x] id) := by
  have hexpression : ∀ s e id,
      (∀ span, evaluate (callClosure (maxCalls - d')) s e id ≠ .error ⟨.recursionLimit maxCalls, span⟩) →
      evaluate (callClosure (maxCalls - d)) s e id = evaluate (callClosure (maxCalls - d')) s e id := by
    intro s e id hlimit
    have hcut := evaluate_cut (callClosure_cut (Nat.sub_le_sub_left hd maxCalls)) s e
    refine hcut.eq fun f hf => ?_
    obtain ⟨error, span⟩ := f
    cases hf
    exact hlimit span
  have hcall : ∀ (f : FunctionValue) args id,
      f.callWith (callClosure (maxCalls - d')) args id ≠ .error (.recursionLimit maxCalls) →
      f.call args id = f.callWith (callClosure (maxCalls - d')) args id ∧
      ∀ other, SameOutcome (f.call args other) (f.callWith (callClosure (maxCalls - d')) args id) := by
    intro f args id hlimit
    have hcut := callWith_cut (callClosure_cut (Nat.sub_le maxCalls d')) f args
    have heq : f.call args id = f.callWith (callClosure (maxCalls - d')) args id := by
      refine hcut.eq fun e he => ?_
      cases he
      exact hlimit
    refine ⟨heq, fun other => ?_⟩
    rw [← heq]
    exact call_renumbered f args maxCalls other id
  refine ⟨fun s e id hlimit => ⟨hexpression s e id hlimit, fun other => ?_⟩, fun s e id r hr hlimit => ?_, hcall,
    fun g x => hcall g.function [.float x]⟩
  · rw [← hexpression s e id hlimit]
    exact evaluate_renumbered s e (maxCalls - d) other id
  · rw [stops_iff hd'] at hr
    rw [stops_iff (Nat.le_trans hd hd')]
    subst hr
    exact (hexpression s e id hlimit).symm

/-! ## Witness: a function that calls another -/

/-- `fn(y) => y` -/
def same : FunctionValue := ⟨none, 0, .script ⟨["y"], .var ⟨9, 10⟩ "y", .empty, .empty⟩, none⟩

/-- `fn(x) => i(x)`, where `i` is bound to the other -/
def relay : FunctionValue :=
  ⟨none, 1, .script ⟨["x"], .call ⟨9, 13⟩ (.var ⟨9, 10⟩ "i") [.var ⟨11, 12⟩ "x"],
    Bindings.empty.set "i" (.function same), .empty⟩, none⟩

/-- With 126 active calls two more can become active, and the function gives what it gives when it is sampled. With 127
the second of them is refused. -/
theorem deep_sample :
    0 ≤ 126 ∧ 126 ≤ maxCalls ∧
      relay.callWith (callClosure (maxCalls - 126)) [.float 3.0] 2 ≠ .error (.recursionLimit maxCalls) ∧
      (Graph.mk relay none).invoke 3.0 2 = relay.callWith (callClosure (maxCalls - 126)) [.float 3.0] 2 ∧
      (Graph.mk relay none).invoke 3.0 2 = .ok (.float 3.0, 2) ∧
      relay.callWith (callClosure (maxCalls - 127)) [.float 3.0] 2 = .error (.recursionLimit maxCalls) := by
  have hdepths : 0 ≤ 126 := Nat.zero_le 126
  have hlimit : 126 ≤ maxCalls := by decide
  have hdeep : relay.callWith (callClosure (maxCalls - 126)) [.float 3.0] 2 = .ok (.float 3.0, 2) := rfl
  have hfree : relay.callWith (callClosure (maxCalls - 126)) [.float 3.0] 2 ≠ .error (.recursionLimit maxCalls) := by
    rw [hdeep]
    exact nofun
  obtain ⟨-, -, -, hgraph⟩ := limit_cuts_off hdepths hlimit
  have hsampled := (hgraph (Graph.mk relay none) 3.0 2 hfree).1
  exact ⟨hdepths, hlimit, hfree, hsampled, hsampled.trans hdeep, rfl⟩

end CurveScript.Cutoff
