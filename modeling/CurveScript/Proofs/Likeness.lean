/-
Two evaluations side by side.

The two evaluate the same expression, read from two places, under bindings that need not be equal. What is asked of the
bindings is that they agree on the names that count. A `Likeness` says which names count, for an expression and for a
function, and which identities may stand for each other; it is a parameter, so that one induction serves a comparison of
whole tables and one of free names only.

Results:
- `Alike`: two values that differ in identities, in the offsets of function bodies, and in what the functions captured
  under names that do not count. `alike_refl`: every value is like itself.
- `native_alike`: the native functions cannot tell alike arguments apart.
- `evaluate_alike`, `callClosure_alike`: alike scopes give alike outcomes, whether values or failures. The induction is on
  the calls that may still become active, then on the expression; functions are only taken apart, never followed into
  what they captured, so it needs no induction on values.
- `execute_alike`: statements.
-/
import CurveScript.Proofs.CallStack
import CurveScript.Proofs.Shifting
import CurveScript.Run
import Mathlib.Data.List.Forall2
import Mathlib.Data.Option.Basic

namespace CurveScript

/-! ## The relation -/

/-- which names of a program count, and which identities may stand for each other -/
structure Likeness where
  /-- the names of an expression that count -/
  counts : Expr → String → Prop
  /-- the names of a function that count, by its parameters and its body -/
  outer : List String → Expr → String → Prop
  ids : Nat → Nat → Prop
  var : ∀ {span x}, counts (.var span x) x
  unary : ∀ {span op e x}, counts e x → counts (.unary span op e) x
  left : ∀ {span op l r x}, counts l x → counts (.binary span op l r) x
  right : ∀ {span op l r x}, counts r x → counts (.binary span op l r) x
  callee : ∀ {span f args x}, counts f x → counts (.call span f args) x
  argument : ∀ {span f args e x}, e ∈ args → counts e x → counts (.call span f args) x
  lambda : ∀ {span params body x}, outer params body x → counts (.lambda span params body) x
  body : ∀ {params body x}, counts body x → x ∉ params → outer params body x
  ids_refl : ∀ id, ids id id
  ids_succ : ∀ {id id'}, ids id id' → ids (id + 1) (id' + 1)

/-- what a name means outside of parameters: a binding hides the constant and the function of its name -/
inductive Meaning where
  | bound (v : Value)
  | native (constant : Option Float) (function : Option FunctionValue)

/-- what a name means by a table and a registry -/
def meaning (t : Bindings Value) (r : Registry) (x : String) : Meaning :=
  match t.get? x with
  | some v => .bound v
  | none => .native (r.constant? x) (r.function? x)

/-- two meanings of one kind, with the same constant -/
inductive MeaningsAlike (R : Value → Value → Prop) : Meaning → Meaning → Prop where
  | bound {v v'} (h : R v v') : MeaningsAlike R (.bound v) (.bound v')
  | native {f f'} (constant : Option Float) (h : R (.function f) (.function f')) :
      MeaningsAlike R (.native constant (some f)) (.native constant (some f'))
  | constant (constant : Option Float) : MeaningsAlike R (.native constant none) (.native constant none)

/-- two closures with one body, perhaps read from another place, that captured alike meanings of the names that count -/
inductive ClosuresAlike (L : Likeness) (R : Value → Value → Prop) : Closure → Closure → Prop where
  | mk {params body t r t' r'} (k : Nat)
      (h : ∀ x, L.outer params body x → MeaningsAlike R (meaning t r x) (meaning t' r' x)) :
      ClosuresAlike L R ⟨params, body, t, r⟩ ⟨params, body.shift k, t', r'⟩

/-- two values that differ in identities, in the offsets of bodies, and under captured names that do not count -/
inductive Alike (L : Likeness) : Value → Value → Prop where
  | integer (n : Int64) : Alike L (.integer n) (.integer n)
  | float (x : Float) : Alike L (.float x) (.float x)
  | unit : Alike L .unit .unit
  | native {name id id' range} (arity : Arity) (call : NativeCall) (hid : L.ids id id') :
      Alike L (.function ⟨name, id, .native arity call, range⟩) (.function ⟨name, id', .native arity call, range⟩)
  | script {name id id' range c c'} (hid : L.ids id id') (hc : ClosuresAlike L (Alike L) c c') :
      Alike L (.function ⟨name, id, .script c, range⟩) (.function ⟨name, id', .script c', range⟩)
  | graph {f f'} (range : Option SampleRange) (hf : Alike L (.function f) (.function f')) :
      Alike L (.graph ⟨f, range⟩) (.graph ⟨f', range⟩)

namespace Likeness

open CurveScript.CallStack

/-! ## Every value is like itself -/

theorem sizeOf_lookup {α : Type} [SizeOf α] {entries : List (String × α)} {x : String} {a : α}
    (h : entries.lookup x = some a) : sizeOf a < sizeOf entries := by
  induction entries with
  | nil => cases h
  | cons e rest ih =>
    obtain ⟨n, b⟩ := e
    rw [List.lookup_cons] at h
    simp only [List.cons.sizeOf_spec, Prod.mk.sizeOf_spec]
    split at h
    · cases h; omega
    · have := ih h; omega

theorem sizeOf_get? {α : Type} [SizeOf α] {b : Bindings α} {x : String} {a : α} (h : b.get? x = some a) :
    sizeOf a < sizeOf b := by
  have := sizeOf_lookup h
  cases b
  simp only [Bindings.mk.sizeOf_spec] at this ⊢
  omega

theorem sizeOf_function? {r : Registry} {x : String} {f : FunctionValue} (h : r.function? x = some f) :
    sizeOf f < sizeOf r := by
  obtain ⟨entry, hentry, rfl⟩ := Option.map_eq_some_iff.1 h
  have := sizeOf_get? hentry
  cases entry
  cases r
  simp only [Registered.mk.sizeOf_spec, Registry.mk.sizeOf_spec] at this ⊢
  omega

theorem meaning_refl {R : Value → Value → Prop} {t : Bindings Value} {r : Registry} {x : String}
    (hv : ∀ v, t.get? x = some v → R v v) (hf : ∀ f, r.function? x = some f → R (.function f) (.function f)) :
    MeaningsAlike R (meaning t r x) (meaning t r x) := by
  unfold meaning
  cases hb : t.get? x with
  | some v => exact .bound (hv v hb)
  | none =>
    cases hr : r.function? x with
    | none => exact .constant _
    | some f => exact .native _ (hf f hr)

variable {L : Likeness}

/-- **Every value is like itself.** The recursion is into what a function captured. -/
theorem alike_refl : ∀ v : Value, Alike L v v
  | .integer n => .integer n
  | .float x => .float x
  | .unit => .unit
  | .graph ⟨f, range⟩ => .graph range (alike_refl (.function f))
  | .function ⟨_, id, .native arity call, _⟩ => .native arity call (L.ids_refl id)
  | .function ⟨_, id, .script ⟨params, body, t, r⟩, _⟩ => by
    have hc : ClosuresAlike L (Alike L) ⟨params, body, t, r⟩ ⟨params, body.shift 0, t, r⟩ := by
      refine .mk 0 fun x _ => meaning_refl (fun v hv => ?_) fun f hf => ?_
      · have := sizeOf_get? hv
        exact alike_refl v
      · have := sizeOf_function? hf
        exact alike_refl (.function f)
    rw [Expr.shift_zero] at hc
    exact .script (L.ids_refl id) hc
termination_by v => sizeOf v
decreasing_by
  all_goals simp_wf
  all_goals omega

/-! ## What can be seen of a value -/

variable {v v' w w' : Value} {f f' : FunctionValue}

theorem kind_alike (h : Alike L v v') : v.kind = v'.kind := by cases h <;> rfl

theorem number?_alike (h : Alike L v v') : v.number? = v'.number? := by cases h <;> rfl

theorem integer?_alike (h : Alike L v v') : v.integer? = v'.integer? := by cases h <;> rfl

theorem function?_alike (h : Alike L v v') :
    Option.Rel (fun f f' => Alike L (.function f) (.function f')) v.function? v'.function? := by
  cases h with
  | native arity call hid => exact .some (.native arity call hid)
  | script hid hc => exact .some (.script hid hc)
  | graph range hf => exact .some hf
  | _ => exact .none

theorem name_alike (h : Alike L (.function f) (.function f')) : f.name = f'.name := by cases h <;> rfl

theorem arity_alike (h : Alike L (.function f) (.function f')) : f.arity = f'.arity := by
  cases h with
  | native => rfl
  | script hid hc => cases hc; rfl

theorem displayName_alike (h : Alike L (.function f) (.function f')) : f.displayName = f'.displayName := by
  rw [FunctionValue.displayName, name_alike h]; rfl

theorem label_alike (h : Alike L (.function f) (.function f')) : f.label = f'.label := by
  rw [FunctionValue.label, displayName_alike h, arity_alike h]; rfl

/-! ## Natives -/

/-- two results: both failures, or both values, which are related -/
inductive Outcomes {ε ε' α α' : Type} (E : ε → ε' → Prop) (A : α → α' → Prop) : Except ε α → Except ε' α' → Prop where
  | ok {a a'} (h : A a a') : Outcomes E A (.ok a) (.ok a')
  | error {e e'} (h : E e e') : Outcomes E A (.error e) (.error e')

theorem Outcomes.mono {ε ε' α α' : Type} {E E' : ε → ε' → Prop} {A A' : α → α' → Prop} {x : Except ε α}
    {x' : Except ε' α'} (h : Outcomes E A x x') (hE : ∀ e e', E e e' → E' e e') (hA : ∀ a a', A a a' → A' a a') :
    Outcomes E' A' x x' := by
  cases h with
  | ok h => exact .ok (hA _ _ h)
  | error h => exact .error (hE _ _ h)

/-- Equal results are alike. -/
theorem outcomes_of_eq {x x' : Except EvalError Value} (h : x = x') : Outcomes Eq (Alike L) x x' := by
  subst h
  cases x with
  | ok v => exact .ok (alike_refl v)
  | error e => exact .error rfl

theorem operands_alike (op : BinaryOperator) (hv : Alike L v v') (hw : Alike L w w') :
    Value.operands op v w = Value.operands op v' w' := by
  cases hv <;> cases hw <;> rfl

theorem binary_alike (op : BinaryOperator) (hv : Alike L v v') (hw : Alike L w w') :
    Value.binary op v w = Value.binary op v' w' := by
  rw [Value.binary, operands_alike op hv hw]; rfl

theorem unary_alike (op : UnaryOperator) (hv : Alike L v v') : Outcomes Eq (Alike L) (v.unary op) (v'.unary op) := by
  refine outcomes_of_eq ?_
  cases op <;> cases hv <;> rfl

variable {args args' : List Value}

theorem getElem?_alike (h : List.Forall₂ (Alike L) args args') (i : Nat) :
    Option.Rel (Alike L) args[i]? args'[i]? := by
  induction h generalizing i with
  | nil => exact .none
  | cons hv _ ih =>
    cases i with
    | zero => exact .some hv
    | succ i => exact ih i

theorem number_alike (h : List.Forall₂ (Alike L) args args') (name : String) (i : Nat) :
    Builtin.number name args i = Builtin.number name args' i := by
  unfold Builtin.number
  rw [h.length_eq]
  have hget := getElem?_alike h i
  generalize args[i]? = a, args'[i]? = a' at hget ⊢
  cases hget with
  | none => rfl
  | some hv => simp only [number?_alike hv, kind_alike hv]

theorem ofNumber_alike (h : List.Forall₂ (Alike L) args args') (name : String) (fn : Float → Float) :
    Builtin.ofNumber name args fn = Builtin.ofNumber name args' fn := by
  rw [Builtin.ofNumber, number_alike h]; rfl

theorem ofNumberWhere_alike (h : List.Forall₂ (Alike L) args args') (name : String) (accepted : Float → Bool)
    (requirement : String) (fn : Float → Float) :
    Builtin.ofNumberWhere name args accepted requirement fn =
      Builtin.ofNumberWhere name args' accepted requirement fn := by
  rw [Builtin.ofNumberWhere, number_alike h]; rfl

theorem absolute_alike (h : List.Forall₂ (Alike L) args args') : Builtin.absolute args = Builtin.absolute args' := by
  have hhead := getElem?_alike h 0
  unfold Builtin.absolute
  rw [ofNumber_alike h, List.head?_eq_getElem?, List.head?_eq_getElem?]
  generalize args[0]? = a, args'[0]? = a' at hhead ⊢
  cases hhead with
  | none => rfl
  | some hv => cases hv <;> rfl

theorem rounding_alike (h : List.Forall₂ (Alike L) args args') (name : String) (fn : Float → Float) :
    Builtin.rounding name args fn = Builtin.rounding name args' fn := by
  have hhead := getElem?_alike h 0
  unfold Builtin.rounding
  rw [ofNumber_alike h, List.head?_eq_getElem?, List.head?_eq_getElem?]
  generalize args[0]? = a, args'[0]? = a' at hhead ⊢
  cases hhead with
  | none => rfl
  | some hv => cases hv <;> rfl

theorem power_alike (h : List.Forall₂ (Alike L) args args') : Builtin.power args = Builtin.power args' := by
  have hnumber := number_alike h "pow" 1
  unfold Builtin.power
  rw [hnumber, h.length_eq]
  cases Builtin.number "pow" args' 1 with
  | error e => rfl
  | ok x =>
    cases h with
    | nil => rfl
    | cons hv hrest =>
      cases hrest with
      | nil => rfl
      | cons hw _ => exact binary_alike .pow hv hw

theorem bestOf_alike (name : String) (pick : BinaryOperator) (h : List.Forall₂ (Alike L) args args') {best best' : Value}
    (hbest : Alike L best best') :
    Outcomes Eq (Alike L) (Builtin.bestOf name pick best args) (Builtin.bestOf name pick best' args') := by
  induction h generalizing best best' with
  | nil => exact .ok hbest
  | cons hv hrest ih =>
    unfold Builtin.bestOf Builtin.better
    rw [number_alike (.cons hv .nil), binary_alike pick hv hbest]
    split
    · exact .error rfl
    · split
      · exact .error rfl
      · exact ih hv
      · exact ih hbest

theorem allIntegers_alike (h : List.Forall₂ (Alike L) args args') :
    args.all Builtin.isInteger = args'.all Builtin.isInteger := by
  induction h with
  | nil => rfl
  | cons hv _ ih => rw [List.all_cons, List.all_cons, ih, Builtin.isInteger, integer?_alike hv]; rfl

theorem extremum_alike (name : String) (pick : BinaryOperator) (h : List.Forall₂ (Alike L) args args') :
    Outcomes Eq (Alike L) (Builtin.extremum name pick args) (Builtin.extremum name pick args') := by
  have hall := allIntegers_alike h
  cases h with
  | nil => exact .error rfl
  | @cons v v' rest rest' hv hrest =>
    simp only [Builtin.extremum]
    rw [number_alike (.cons hv .nil), hall]
    split
    · exact .error rfl
    · have hbestOf := bestOf_alike name pick hrest hv
      generalize Builtin.bestOf name pick v rest = x, Builtin.bestOf name pick v' rest' = x' at hbestOf ⊢
      cases hbestOf with
      | error he => exact .error he
      | ok hbest =>
        simp only
        split
        · exact .ok hbest
        · rw [number_alike (.cons hbest .nil)]
          exact outcomes_of_eq rfl

theorem plotRange_alike (h : List.Forall₂ (Alike L) args args') : Builtin.plotRange args = Builtin.plotRange args' := by
  unfold Builtin.plotRange
  rw [h.length_eq, number_alike h "plot" 1, number_alike h "plot" 2, number_alike h "plot" 3]

theorem plotFunction_alike (h : List.Forall₂ (Alike L) args args') :
    Outcomes Eq (Alike L) (Builtin.plotFunction args) (Builtin.plotFunction args') := by
  have hrange := plotRange_alike h
  cases h with
  | nil => exact .error rfl
  | @cons v v' rest rest' hv hrest =>
    simp only [Builtin.plotFunction]
    have hfunction := function?_alike hv
    generalize v.function? = a, v'.function? = a' at hfunction ⊢
    cases hfunction with
    | none => rw [kind_alike hv]; exact .error rfl
    | some hf =>
      simp only [arity_alike hf, label_alike hf, hrange]
      split
      · split
        · exact .error rfl
        · exact .ok (.graph _ hf)
      · exact .error rfl

theorem builtin_alike (b : Builtin) (h : List.Forall₂ (Alike L) args args') :
    Outcomes Eq (Alike L) (b.call args) (b.call args') := by
  cases b with
  | plot => exact plotFunction_alike h
  | min => exact extremum_alike "min" .lt h
  | max => exact extremum_alike "max" .gt h
  | abs => exact outcomes_of_eq (absolute_alike h)
  | pow => exact outcomes_of_eq (power_alike h)
  | floor | ceil | round => exact outcomes_of_eq (rounding_alike h _ _)
  | sqrt | ln | log10 | asin | acos => exact outcomes_of_eq (ofNumberWhere_alike h _ _ _ _)
  | exp | sin | cos | tan | atan => exact outcomes_of_eq (ofNumber_alike h _ _)

theorem scalars_alike (p : Plugin.ExportedFunction) (h : List.Forall₂ (Alike L) args args') (position : Nat) :
    p.scalars position args = p.scalars position args' := by
  induction h generalizing position with
  | nil => rfl
  | cons hv _ ih =>
    unfold Plugin.ExportedFunction.scalars
    rw [number?_alike hv, kind_alike hv, ih]

theorem plugin_alike (p : Plugin.ExportedFunction) (h : List.Forall₂ (Alike L) args args') :
    p.call args = p.call args' := by
  simp only [Plugin.ExportedFunction.call, Plugin.ExportedFunction.callBy, scalars_alike p h, h.length_eq]

theorem seen_alike {v v' : Value} (h : Alike L v v') : v.seen = v'.seen := by
  cases h with
  | integer n => rfl
  | float x => rfl
  | unit => rfl
  | native arity call hid => rfl
  | script hid hc =>
    cases hc
    rfl
  | graph range hf =>
    cases hf with
    | native arity call hid => rfl
    | script hid hc =>
      cases hc
      rfl

theorem getD_alike (h : List.Forall₂ (Alike L) args args') (i : Nat) :
    Alike L (args.getD i .unit) (args'.getD i .unit) := by
  induction h generalizing i with
  | nil => exact .unit
  | cons hv _ ih =>
    cases i with
    | zero => exact hv
    | succ i => exact ih i

/-- Functions of the host see no difference between alike arguments. -/
theorem host_alike (kept : List Value) (rule : List Seen → Except EvalError Choice)
    (h : List.Forall₂ (Alike L) args args') :
    Outcomes Eq (Alike L) ((NativeCall.host kept rule).call args) ((NativeCall.host kept rule).call args') := by
  have hseen : args.map Value.seen = args'.map Value.seen := by
    rw [← List.forall₂_eq_eq_eq, List.forall₂_map_left_iff, List.forall₂_map_right_iff]
    exact h.imp fun _ _ => seen_alike
  simp only [NativeCall.call, NativeCall.callBy, hseen]
  cases rule (args'.map Value.seen) with
  | error e => exact .error rfl
  | ok c =>
    cases c with
    | integer n => exact .ok (.integer n)
    | float x => exact .ok (.float x)
    | unit => exact .ok .unit
    | argument i => exact .ok (getD_alike h i)
    | kept i => exact .ok (alike_refl _)

/-- **Natives cannot tell alike arguments apart.** -/
theorem native_alike (call : NativeCall) (h : List.Forall₂ (Alike L) args args') :
    Outcomes Eq (Alike L) (call.call args) (call.call args') := by
  cases call with
  | builtin b => exact builtin_alike b h
  | plugin p => exact outcomes_of_eq (plugin_alike p h)
  | host kept rule => exact host_alike kept rule h

/-! ## Names -/

/-- what a name means in a scope, parameters first -/
def means (s : Scope) (x : String) : Meaning :=
  match (s.params.zip s.args).lookup x with
  | some v => .bound v
  | none => meaning s.table s.registry x

theorem lookup_eq (s : Scope) (x : String) :
    s.lookup x = match means s x with
      | .bound v => .ok v
      | .native (some c) _ => .ok (.float c)
      | .native none (some f) => .ok (.function f)
      | .native none none => .error (.undefinedSymbol x) := by
  unfold Scope.lookup Scope.local? means meaning
  cases (s.params.zip s.args).lookup x with
  | some v => rfl
  | none =>
    cases s.table.get? x with
    | some v => rfl
    | none =>
      dsimp only
      cases s.registry.constant? x with
      | some c => rfl
      | none => cases s.registry.function? x <;> rfl

theorem callee_eq (s : Scope) (x : String) :
    s.callee x = match means s x with
      | .bound v => Scope.callable v
      | .native _ (some f) => .ok f
      | .native _ none => .error (.undefinedSymbol x) := by
  unfold Scope.callee Scope.local? means meaning
  cases (s.params.zip s.args).lookup x with
  | some v => rfl
  | none =>
    cases s.table.get? x with
    | some v => rfl
    | none => dsimp only; cases s.registry.function? x <;> rfl

variable (L) in
/-- two scopes with the same parameters and alike arguments, where the given names that are no parameters mean alike
things -/
structure ScopesAlike (names : String → Prop) (s s' : Scope) : Prop where
  params : s.params = s'.params
  args : List.Forall₂ (Alike L) s.args s'.args
  outside : ∀ x, names x → (s.params.zip s.args).lookup x = none →
    MeaningsAlike (Alike L) (meaning s.table s.registry x) (meaning s'.table s'.registry x)

theorem ScopesAlike.mono {names names' : String → Prop} {s s' : Scope} (h : ScopesAlike L names s s')
    (hnames : ∀ x, names' x → names x) : ScopesAlike L names' s s' :=
  ⟨h.params, h.args, fun x hx hnone => h.outside x (hnames x hx) hnone⟩

theorem parameter_alike (params : List String) (h : List.Forall₂ (Alike L) args args') (x : String) :
    Option.Rel (Alike L) ((params.zip args).lookup x) ((params.zip args').lookup x) := by
  induction h generalizing params with
  | nil => cases params <;> exact .none
  | cons hv _ ih =>
    cases params with
    | nil => exact .none
    | cons p ps =>
      simp only [List.zip_cons_cons, List.lookup_cons]
      split
      · exact .some hv
      · exact ih ps

theorem means_alike {names : String → Prop} {s s' : Scope} (h : ScopesAlike L names s s') {x : String} (hx : names x) :
    MeaningsAlike (Alike L) (means s x) (means s' x) := by
  have hparam := parameter_alike s.params h.args x
  have houtside := h.outside x hx
  unfold means
  rw [← h.params]
  generalize (s.params.zip s.args).lookup x = a, (s.params.zip s'.args).lookup x = a' at hparam houtside ⊢
  cases hparam with
  | some hv => exact .bound hv
  | none => exact houtside rfl

theorem callable_alike {v v' : Value} (h : Alike L v v') :
    Outcomes Eq (fun f f' => Alike L (.function f) (.function f')) (Scope.callable v) (Scope.callable v') := by
  have hfunction := function?_alike h
  unfold Scope.callable
  rw [kind_alike h]
  generalize v.function? = a, v'.function? = a' at hfunction ⊢
  cases hfunction with
  | none => exact .error rfl
  | some hf => exact .ok hf

theorem lookup_alike {names : String → Prop} {s s' : Scope} (h : ScopesAlike L names s s') {x : String} (hx : names x) :
    Outcomes Eq (Alike L) (s.lookup x) (s'.lookup x) := by
  have hmeans := means_alike h hx
  rw [lookup_eq, lookup_eq]
  generalize means s x = m, means s' x = m' at hmeans ⊢
  cases hmeans with
  | bound hv => exact .ok hv
  | native c hf => cases c with
    | some c => exact .ok (.float c)
    | none => exact .ok hf
  | constant c => cases c with
    | some c => exact .ok (.float c)
    | none => exact .error rfl

theorem callee_alike {names : String → Prop} {s s' : Scope} (h : ScopesAlike L names s s') {x : String} (hx : names x) :
    Outcomes Eq (fun f f' => Alike L (.function f) (.function f')) (s.callee x) (s'.callee x) := by
  have hmeans := means_alike h hx
  rw [callee_eq, callee_eq]
  generalize means s x = m, means s' x = m' at hmeans ⊢
  cases hmeans with
  | bound hv => exact callable_alike hv
  | native c hf => exact .ok hf
  | constant c => exact .error rfl

/-! ## Tables -/

theorem meaning_set (t : Bindings Value) (r : Registry) (name x : String) (v : Value) :
    meaning (t.set name v) r x = if x = name then .bound v else meaning t r x := by
  unfold meaning
  rw [Bindings.get?_set]
  by_cases hx : x = name
  · rw [if_pos hx, if_pos hx]
  · rw [if_neg hx, if_neg hx]

/-- Binding alike values under one name keeps the agreement on any other, and brings it about on this one. -/
theorem meaning_set_alike {t t' : Bindings Value} {r r' : Registry} {v v' : Value} (hv : Alike L v v') {name x : String}
    (h : x ≠ name → MeaningsAlike (Alike L) (meaning t r x) (meaning t' r' x)) :
    MeaningsAlike (Alike L) (meaning (t.set name v) r x) (meaning (t'.set name v') r' x) := by
  rw [meaning_set, meaning_set]
  split
  · exact .bound hv
  · next hx => exact h hx

/-- Alike meanings of a name are bindings of alike values, or none. -/
theorem binding_alike {t t' : Bindings Value} {r r' : Registry} {x : String}
    (h : MeaningsAlike (Alike L) (meaning t r x) (meaning t' r' x)) : Option.Rel (Alike L) (t.get? x) (t'.get? x) := by
  unfold meaning at h
  generalize t.get? x = a, t'.get? x = a', r.function? x = f, r'.function? x = f' at h ⊢
  cases a with
  | none =>
    cases a' with
    | none => exact .none
    | some v' => cases h
  | some v =>
    cases a' with
    | none => cases h
    | some v' =>
      cases h with
      | bound hv => exact .some hv

/-- What a function captures means what it meant where the function was made. -/
theorem captured_alike (params : List String) (h : List.Forall₂ (Alike L) args args') {t t' : Bindings Value}
    {r r' : Registry} {x : String} (houtside : (params.zip args).lookup x = none →
      MeaningsAlike (Alike L) (meaning t r x) (meaning t' r' x)) :
    MeaningsAlike (Alike L) (meaning ((params.zip args).foldl (fun t p => t.set p.1 p.2) t) r x)
      (meaning ((params.zip args').foldl (fun t p => t.set p.1 p.2) t') r' x) := by
  induction h generalizing params t t' with
  | nil => cases params <;> exact houtside rfl
  | cons hv _ ih =>
    cases params with
    | nil => exact houtside rfl
    | cons p ps =>
      refine ih ps fun hnone => meaning_set_alike hv fun hx => houtside ?_
      rw [List.zip_cons_cons, List.lookup_cons, beq_false_of_ne hx]
      exact hnone

/-! ## Evaluations -/

variable (L) in
/-- from identities that may stand for each other, two evaluations have related results and leave such identities -/
def Simulates {ε ε' α α' : Type} (E : ε → ε' → Prop) (A : α → α' → Prop) (x : Eval ε α) (x' : Eval ε' α') : Prop :=
  ∀ id id', L.ids id id' → Outcomes E (fun p p' => A p.1 p'.1 ∧ L.ids p.2 p'.2) (x id) (x' id')

section Simulation

variable {ε ε' α α' β β' : Type} {E : ε → ε' → Prop} {A : α → α' → Prop} {B : β → β' → Prop}

theorem Simulates.pure {a : α} {a' : α'} (h : A a a') :
    Simulates L E A (Pure.pure a : Eval ε α) (Pure.pure a' : Eval ε' α') :=
  fun _ _ hid => .ok ⟨h, hid⟩

theorem Simulates.fail {e : ε} {e' : ε'} (h : E e e') : Simulates L E A (Eval.fail e) (Eval.fail e') :=
  fun _ _ _ => .error h

theorem Simulates.bind {x : Eval ε α} {x' : Eval ε' α'} {f : α → Eval ε β} {f' : α' → Eval ε' β'}
    (hx : Simulates L E A x x') (hf : ∀ a a', A a a' → Simulates L E B (f a) (f' a')) :
    Simulates L E B (x >>= f) (x' >>= f') := by
  intro id id' hid
  have hfirst := hx id id' hid
  rw [bind_apply, bind_apply]
  generalize x id = r, x' id' = r' at hfirst ⊢
  cases hfirst with
  | error he => exact .error he
  | ok h => exact hf _ _ h.1 _ _ h.2

theorem Simulates.lift {r : Except ε α} {r' : Except ε' α'} (h : Outcomes E A r r') :
    Simulates L E A (Eval.lift r) (Eval.lift r') := by
  intro id id' hid
  cases h with
  | ok ha => exact .ok ⟨ha, hid⟩
  | error he => exact .error he

end Simulation

/-- two failures with the same error, the second `k` bytes further on -/
def FailuresMoved (k : Nat) (f f' : Failure) : Prop := f' = ⟨f.error, f.span.shift k⟩

theorem Simulates.located {α α' : Type} {A : α → α' → Prop} {x : Eval EvalError α} {x' : Eval EvalError α'} (k : Nat)
    (span : Span) (h : Simulates L Eq A x x') :
    Simulates L (FailuresMoved k) A (Eval.located span x) (Eval.located (span.shift k) x') := by
  intro id id' hid
  have hx := h id id' hid
  unfold Eval.located
  generalize x id = r, x' id' = r' at hx ⊢
  cases hx with
  | ok ha => exact .ok ha
  | error he => subst he; exact .error rfl

theorem Simulates.unlocated {α α' : Type} {A : α → α' → Prop} {x : Eval Failure α} {x' : Eval Failure α'} {k : Nat}
    (h : Simulates L (FailuresMoved k) A x x') : Simulates L Eq A (Eval.unlocated x) (Eval.unlocated x') := by
  intro id id' hid
  have hx := h id id' hid
  unfold Eval.unlocated
  generalize x id = r, x' id' = r' at hx ⊢
  cases hx with
  | ok ha => exact .ok ha
  | error he => subst he; exact .error rfl

variable (L) in
/-- two ways to call closures that give alike outcomes for alike closures on as many arguments as they have parameters -/
def InvokesAlike (invoke invoke' : Invoke) : Prop :=
  ∀ c c' args args', ClosuresAlike L (Alike L) c c' → List.Forall₂ (Alike L) args args' →
    args.length = c.params.length → Simulates L Eq (Alike L) (invoke c args) (invoke' c' args')

variable {invoke invoke' : Invoke}

theorem callWith_alike (hinvoke : InvokesAlike L invoke invoke') {f f' : FunctionValue}
    (hf : Alike L (.function f) (.function f')) {args args' : List Value} (hargs : List.Forall₂ (Alike L) args args') :
    Simulates L Eq (Alike L) (f.callWith invoke args) (f'.callWith invoke' args') := by
  rw [FunctionValue.callWith_eq, FunctionValue.callWith_eq]
  rw [arity_alike hf, displayName_alike hf, hargs.length_eq]
  by_cases hcount : f'.arity.accepts args'.length = true
  · rw [if_pos hcount, if_pos hcount]
    cases hf with
    | native arity call hid => exact Simulates.lift (native_alike call hargs)
    | script hid hc =>
      refine hinvoke _ _ args args' hc hargs ?_
      cases hc with
      | mk k h => rw [hargs.length_eq]; exact beq_iff_eq.1 hcount
  · rw [if_neg hcount, if_neg hcount]
    exact Simulates.fail rfl

theorem makeFunction_alike {ε : Type} {E : ε → ε → Prop} {s s' : Scope} (name : Option String) (params : List String)
    (body : Expr) (k : Nat) (hs : ScopesAlike L (L.outer params body) s s') :
    Simulates L E (fun f f' => Alike L (.function f) (.function f')) (s.makeFunction (ε := ε) name params body)
      (s'.makeFunction (ε := ε) name params (body.shift k)) := by
  intro id id' hid
  refine .ok ⟨.script hid (.mk k fun x hx => ?_), L.ids_succ hid⟩
  unfold Scope.captured
  rw [← hs.params]
  exact captured_alike s.params hs.args (hs.outside x hx)

mutual

/-- **Alike scopes give alike outcomes**, if closures are called in alike ways. -/
theorem evaluate_alike (k : Nat) (hinvoke : InvokesAlike L invoke invoke') {s s' : Scope} : ∀ e : Expr,
    ScopesAlike L (L.counts e) s s' →
      Simulates L (FailuresMoved k) (Alike L) (evaluate invoke s e) (evaluate invoke' s' (e.shift k))
  | .integer _ n, _ => by
    simp only [Expr.shift, evaluate]
    exact Simulates.pure (.integer n)
  | .float _ x, _ => by
    simp only [Expr.shift, evaluate]
    exact Simulates.pure (.float x)
  | .var span x, hs => by
    simp only [Expr.shift, evaluate]
    exact Simulates.located k span (Simulates.lift (lookup_alike hs L.var))
  | .unary span op e, hs => by
    simp only [Expr.shift, evaluate]
    refine (evaluate_alike k hinvoke e (hs.mono fun _ => L.unary)).bind fun v v' hv => ?_
    exact Simulates.located k span (Simulates.lift (unary_alike op hv))
  | .binary span op l r, hs => by
    simp only [Expr.shift, evaluate]
    refine (evaluate_alike k hinvoke l (hs.mono fun _ => L.left)).bind fun v v' hv => ?_
    refine (evaluate_alike k hinvoke r (hs.mono fun _ => L.right)).bind fun w w' hw => ?_
    exact Simulates.located k span (Simulates.lift (outcomes_of_eq (binary_alike op hv hw)))
  | .call span callee args, hs => by
    have hrest : ∀ f f', Alike L (.function f) (.function f') → Simulates L (FailuresMoved k) (Alike L)
        (do
          let vs ← evaluateAll invoke s args
          Eval.located span (f.callWith invoke vs))
        (do
          let vs ← evaluateAll invoke' s' (Expr.shiftAll k args)
          Eval.located (span.shift k) (f'.callWith invoke' vs)) := by
      intro f f' hf
      refine (evaluateAll_alike k hinvoke args fun e he => hs.mono fun _ => L.argument he).bind fun vs vs' hvs => ?_
      exact Simulates.located k span (callWith_alike hinvoke hf hvs)
    have hcallee : ScopesAlike L (L.counts callee) s s' := hs.mono fun _ => L.callee
    rcases callee_cases callee with ⟨at_, name, rfl⟩ | hother
    · simp only [Expr.shift, evaluate]
      exact (Simulates.located k at_ (Simulates.lift (callee_alike hcallee L.var))).bind hrest
    · have hshifted : ∀ at_ name, callee.shift k ≠ .var at_ name := by
        intro at_ name hshift
        cases callee with
        | var at' name' => exact hother at' name' rfl
        | _ => simp only [Expr.shift] at hshift; cases hshift
      rw [Expr.shift, evaluate_call invoke s span args hother, evaluate_call invoke' s' _ _ hshifted,
        Expr.span_shift]
      refine (evaluate_alike k hinvoke callee hcallee).bind fun v v' hv => ?_
      exact (Simulates.located k callee.span (Simulates.lift (callable_alike hv))).bind hrest
  | .lambda span params body, hs => by
    simp only [Expr.shift, evaluate]
    refine (makeFunction_alike none params body k (hs.mono fun _ => L.lambda)).bind fun f f' hf => ?_
    exact Simulates.pure hf

theorem evaluateAll_alike (k : Nat) (hinvoke : InvokesAlike L invoke invoke') {s s' : Scope} : ∀ es : List Expr,
    (∀ e ∈ es, ScopesAlike L (L.counts e) s s') →
      Simulates L (FailuresMoved k) (List.Forall₂ (Alike L)) (evaluateAll invoke s es)
        (evaluateAll invoke' s' (Expr.shiftAll k es))
  | [], _ => by
    simp only [Expr.shiftAll, evaluateAll]
    exact Simulates.pure .nil
  | e :: es, hs => by
    simp only [Expr.shiftAll, evaluateAll]
    refine (evaluate_alike k hinvoke e (hs e List.mem_cons_self)).bind fun v v' hv => ?_
    refine (evaluateAll_alike k hinvoke es fun e' he' => hs e' (List.mem_cons_of_mem e he')).bind fun vs vs' hvs => ?_
    exact Simulates.pure (.cons hv hvs)

end

/-- The scope of a body agrees on the names that count in the body: they are parameters, or count for the function. -/
theorem bodyScope_alike {params : List String} {body : Expr} {t t' : Bindings Value} {r r' : Registry}
    {args args' : List Value} (h : ∀ x, L.outer params body x → MeaningsAlike (Alike L) (meaning t r x) (meaning t' r' x))
    (hargs : List.Forall₂ (Alike L) args args') (hlength : args.length = params.length) :
    ScopesAlike L (L.counts body) ⟨params, args, t, r⟩ ⟨params, args', t', r'⟩ := by
  refine ⟨rfl, hargs, fun x hx hnone => h x (L.body hx ?_)⟩
  rw [← List.map_fst_zip (Nat.le_of_eq hlength.symm)]
  intro hmem
  obtain ⟨p, hp, rfl⟩ := List.mem_map.1 hmem
  have hother := List.lookup_eq_none_iff.1 hnone p hp
  simp at hother

/-- **Alike calls have alike outcomes**, with as many more calls allowed. -/
theorem callClosure_alike (calls : Nat) : InvokesAlike L (callClosure calls) (callClosure calls) := by
  induction calls with
  | zero => exact fun _ _ _ _ _ _ _ => Simulates.fail rfl
  | succ calls ih =>
    intro c c' args args' hc hargs hlength
    cases hc with
    | mk k h => exact Simulates.unlocated (evaluate_alike k ih _ (bodyScope_alike h hargs hlength))

/-! ## Statements -/

variable (L) in
/-- two pairs of a table and a registry in which the given names mean alike things -/
def TablesAlike (names : String → Prop) (t : Bindings Value) (r : Registry) (t' : Bindings Value) (r' : Registry) :
    Prop :=
  ∀ x, names x → MeaningsAlike (Alike L) (meaning t r x) (meaning t' r' x)

theorem global_alike {names : String → Prop} {t t' : Bindings Value} {r r' : Registry}
    (h : TablesAlike L names t r t' r') : ScopesAlike L names (.global t r) (.global t' r') :=
  ⟨rfl, .nil, fun x hx _ => h x hx⟩

/-- the names of a statement that count -/
def statementCounts (L : Likeness) : StatementKind → String → Prop
  | .empty, _ => False
  | .evaluate e, x | .assign _ e, x => L.counts e x
  | .define _ params body, x => L.outer params body x

/-- **Statements have alike results** and keep the agreement of the tables. -/
theorem execute_alike (k : Nat) {names : String → Prop} {t t' : Bindings Value} {r r' : Registry}
    (h : TablesAlike L names t r t' r') (kind : StatementKind) (hnames : ∀ x, statementCounts L kind x → names x) :
    Simulates L (FailuresMoved k) (fun p p' => Alike L p.1 p'.1 ∧ TablesAlike L names p.2 r p'.2 r')
      (kind.execute r t) ((kind.shift k).execute r' t') := by
  have hscope : ScopesAlike L (statementCounts L kind) (.global t r) (.global t' r') := (global_alike h).mono hnames
  have hset : ∀ name v v', Alike L v v' → TablesAlike L names (t.set name v) r (t'.set name v') r' :=
    fun name v v' hv x hx => meaning_set_alike hv fun _ => h x hx
  cases kind with
  | empty => exact Simulates.pure ⟨.unit, h⟩
  | evaluate e =>
    refine (evaluate_alike k (callClosure_alike maxCalls) e hscope).bind fun v v' hv => ?_
    exact Simulates.pure ⟨hv, h⟩
  | assign name e =>
    refine (evaluate_alike k (callClosure_alike maxCalls) e hscope).bind fun v v' hv => ?_
    exact Simulates.pure ⟨.unit, hset name v v' hv⟩
  | define name params body =>
    refine (makeFunction_alike (some name) params body k hscope).bind fun f f' hf => ?_
    exact Simulates.pure ⟨.unit, hset name _ _ hf⟩

end Likeness

end CurveScript
