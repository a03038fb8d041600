/-
Only the free names of an expression matter.

A function captures the whole table and the whole registry, but its body can only reach the names that are free in it.
Two evaluations that agree on the free names of their expression therefore cannot be told apart: not by the result, and
not by any later call of a function in the result. `Same` says the latter without a look into functions: two values are
the same if some relation that holds of them respects all that can be seen of a value and all calls (`Bisimulation`).

Results:
- `alike_bisimulation`: functions with one body that agree on its free names behave the same on every call.
- `evaluate_same`: expressions.
- `run_same`, `run_untouched`: scripts, whose names are those of their tokens.
- `load_extends`: loading plugins keeps every function and every constant.
- `free_names_suffice`: all of this together.
Witness: `adder_same`, a function that is made in two tables of which one has a further binding.
-/
import CurveScript.Proofs.SideBySide

namespace CurveScript

mutual

/-- the names of an expression that are no parameters around them -/
def Expr.free : Expr → List String
  | .integer _ _ | .float _ _ => []
  | .var _ name => [name]
  | .unary _ _ e => e.free
  | .binary _ _ l r => l.free ++ r.free
  | .call _ f args => f.free ++ Expr.freeAll args
  | .lambda _ params body => body.free.filter fun x => x ∉ params

/-- the free names of expressions -/
def Expr.freeAll : List Expr → List String
  | [] => []
  | e :: es => e.free ++ Expr.freeAll es

end

namespace FreeNames

open CurveScript.Likeness CurveScript.SideBySide

/-! ## Values that behave the same -/

/-- the parameters of a function that is defined in a script -/
def params? (f : FunctionValue) : Option (List String) :=
  match f.body with
  | .script c => some c.params
  | .native _ _ => none

/-- A relation that holds between equal values and respects all that can be seen of a value. Related functions have the
same outcome on every call with related arguments, however many more calls may become active. -/
structure Bisimulation (R : Value → Value → Prop) : Prop where
  refl : ∀ v, R v v
  plain : ∀ v v', R v v' → v.function? = none → v' = v
  function : ∀ f v', R (.function f) v' → ∃ f', v' = .function f' ∧ f'.name = f.name ∧ f'.arity = f.arity ∧
    params? f' = params? f ∧ f'.ownRange = f.ownRange
  graph : ∀ g v', R (.graph g) v' → ∃ g', v' = .graph g' ∧ g'.ownRange = g.ownRange ∧
    R (.function g.function) (.function g'.function)
  call : ∀ f f', R (.function f) (.function f') → ∀ calls args args' id id', List.Forall₂ R args args' →
    Outcomes Eq (fun p p' => R p.1 p'.1) (f.callWith (callClosure calls) args id)
      (f'.callWith (callClosure calls) args' id')

/-- two values that nothing can tell apart but their identities -/
def Same (v v' : Value) : Prop := ∃ R, Bisimulation R ∧ R v v'

/-! ## The comparison by free names -/

theorem mem_freeAll {e : Expr} {args : List Expr} {x : String} (he : e ∈ args) (hx : x ∈ e.free) :
    x ∈ Expr.freeAll args := by
  induction args with
  | nil => cases he
  | cons a as ih =>
    rw [Expr.freeAll, List.mem_append]
    rcases List.mem_cons.1 he with rfl | he
    · exact Or.inl hx
    · exact Or.inr (ih he)

/-- the free names count, and any two identities may stand for each other -/
def byFreeNames : Likeness where
  counts e x := x ∈ e.free
  outer params body x := x ∈ body.free ∧ x ∉ params
  ids _ _ := True
  var := by simp [Expr.free]
  unary := by intro _ _ _ _ h; rwa [Expr.free]
  left := by intro _ _ _ _ _ h; rw [Expr.free]; exact List.mem_append_left _ h
  right := by intro _ _ _ _ _ h; rw [Expr.free]; exact List.mem_append_right _ h
  callee := by intro _ _ _ _ h; rw [Expr.free]; exact List.mem_append_left _ h
  argument := by intro _ _ _ _ _ he h; rw [Expr.free]; exact List.mem_append_right _ (mem_freeAll he h)
  lambda := by intro _ _ _ _ h; rw [Expr.free]; simpa using h
  body := fun h hx => ⟨h, hx⟩
  ids_refl _ := trivial
  ids_succ _ := trivial

theorem eq_of_failuresMoved {f f' : Failure} (h : FailuresMoved 0 f f') : f = f' := h.symm

/-- **Alike values behave the same.** -/
theorem alike_bisimulation : Bisimulation (Alike byFreeNames) where
  refl := alike_refl
  plain v v' h hnone := by
    cases h with
    | integer | float | unit => rfl
    | _ => cases hnone
  function f v' h := by
    cases h with
    | native arity call hid => exact ⟨_, rfl, rfl, rfl, rfl, rfl⟩
    | script hid hc => cases hc; exact ⟨_, rfl, rfl, rfl, rfl, rfl⟩
  graph g v' h := by
    cases h with
    | graph range hf => exact ⟨_, rfl, rfl, hf⟩
  call f f' h calls args args' id id' hargs := by
    have hcall := callWith_alike (callClosure_alike calls) h hargs id id' trivial
    exact hcall.mono (fun _ _ he => he) fun _ _ ha => ha.1

theorem same_of_alike {v v' : Value} (h : Alike byFreeNames v v') : Same v v' := ⟨_, alike_bisimulation, h⟩

/-- two pairs of a table and a registry have the same bindings, constants and functions under the given names -/
structure AgreeOn (names : String → Prop) (t : Bindings Value) (r : Registry) (t' : Bindings Value) (r' : Registry) :
    Prop where
  binding : ∀ x, names x → t.get? x = t'.get? x
  constant : ∀ x, names x → r.constant? x = r'.constant? x
  function : ∀ x, names x → r.function? x = r'.function? x

variable {names : String → Prop} {t t' : Bindings Value} {r r' : Registry}

theorem AgreeOn.tablesAlike (h : AgreeOn names t r t' r') : TablesAlike byFreeNames names t r t' r' := by
  intro x hx
  have hmeaning : meaning t r x = meaning t' r' x := by
    unfold meaning
    rw [h.binding x hx, h.constant x hx, h.function x hx]
  rw [hmeaning]
  exact meaning_refl (fun v _ => alike_refl v) fun f _ => alike_refl (.function f)

/-- **Expressions.** Where the free names agree, the failure is the same, or the values are. -/
theorem evaluate_same (e : Expr) (h : AgreeOn (· ∈ e.free) t r t' r') (params : List String) (args : List Value)
    (calls id id' : Nat) :
    Outcomes Eq (fun p p' => Same p.1 p'.1) (evaluate (callClosure calls) ⟨params, args, t, r⟩ e id)
      (evaluate (callClosure calls) ⟨params, args, t', r'⟩ e id') := by
  have hscopes : ScopesAlike byFreeNames (· ∈ e.free) ⟨params, args, t, r⟩ ⟨params, args, t', r'⟩ :=
    ⟨rfl, List.forall₂_same.2 fun v _ => alike_refl v, fun x hx _ => h.tablesAlike x hx⟩
  have hrun := evaluate_alike 0 (callClosure_alike calls) e hscopes id id' trivial
  rw [Expr.shift_zero] at hrun
  exact hrun.mono (fun _ _ => eq_of_failuresMoved) fun _ _ ha => same_of_alike ha.1

/-! ## Scripts -/

/-- the names that the tokens mention -/
def Mentioned (ts : List Token) (x : String) : Prop := ∃ t ∈ ts, t.kind = .name x

/-- the kinds of tokens that are no name, or a mentioned one -/
def Known (ts : List Token) (kind : TokenKind) : Prop := ∀ x, kind = .name x → Mentioned ts x

theorem known_of_mem {ts us : List Token} (h : ∀ t ∈ us, t ∈ ts) : ∀ t ∈ us, Known ts t.kind :=
  fun t ht _ hx => ⟨t, h t ht, hx⟩

mutual

theorem free_known {ts : List Token} {x : String} : ∀ {e : Expr}, e.Over (Known ts) → x ∈ e.free → Mentioned ts x
  | .integer _ _, _, hx | .float _ _, _, hx => by simp [Expr.free] at hx
  | .var _ name, h, hx => by
    simp only [Expr.Over] at h
    simp only [Expr.free, List.mem_singleton] at hx
    exact h x (by rw [hx])
  | .unary _ _ e, h, hx => by
    simp only [Expr.Over] at h
    simp only [Expr.free] at hx
    exact free_known h hx
  | .binary _ _ l r, h, hx => by
    simp only [Expr.Over] at h
    simp only [Expr.free, List.mem_append] at hx
    exact hx.elim (free_known h.1) (free_known h.2)
  | .call _ f args, h, hx => by
    simp only [Expr.Over] at h
    simp only [Expr.free, List.mem_append] at hx
    exact hx.elim (free_known h.1) (freeAll_known h.2)
  | .lambda _ params body, h, hx => by
    simp only [Expr.Over] at h
    simp only [Expr.free, List.mem_filter] at hx
    exact free_known h.2 hx.1

theorem freeAll_known {ts : List Token} {x : String} : ∀ {es : List Expr}, Expr.OverAll (Known ts) es →
    x ∈ Expr.freeAll es → Mentioned ts x
  | [], _, hx => by simp [Expr.freeAll] at hx
  | e :: es, h, hx => by
    simp only [Expr.OverAll] at h
    simp only [Expr.freeAll, List.mem_append] at hx
    exact hx.elim (free_known h.1) (freeAll_known h.2)

end

theorem counted_known {ts : List Token} {kind : StatementKind} (h : kind.Over (Known ts)) {x : String}
    (hx : statementCounts byFreeNames kind x) : Mentioned ts x := by
  cases kind with
  | empty => exact hx.elim
  | evaluate e => exact free_known h hx
  | assign name e => exact free_known h.2 hx
  | define name params body => exact free_known h.2.2 hx.1

/-- the verdicts on one statement that nothing can tell apart -/
inductive SameVerdict : Verdict → Verdict → Prop where
  | unreadable (e : ParseError) : SameVerdict (.unreadable e) (.unreadable e)
  | evaluated {result result'} (span : Span) (h : Outcomes Eq Same result result') :
      SameVerdict (.evaluated span result) (.evaluated span result')

/-- the steps of one statement that nothing can tell apart -/
structure SameStep (s s' : Step) : Prop where
  number : s'.number = s.number
  verdict : SameVerdict s.verdict s'.verdict

theorem sameStep_of_alike {s s' : Step} (h : StepsAlike byFreeNames 0 0 s s') : SameStep s s' := by
  refine ⟨h.number, ?_⟩
  have hverdict := h.verdict
  generalize s.verdict = v, s'.verdict = v' at hverdict
  cases hverdict with
  | unreadable e => exact .unreadable e
  | evaluated span h => exact .evaluated span (h.mono (fun _ _ => eq_of_failuresMoved) fun _ _ => same_of_alike)

/-- two runs have the same steps, and the given names are bound to the same values after them -/
def SameRuns (names : String → Prop) (run run' : List Step × Run × Bool) : Prop :=
  List.Forall₂ SameStep run.1 run'.1 ∧ (∀ x, names x → Option.Rel Same (run.2.1.table.get? x) (run'.2.1.table.get? x)) ∧
    run.2.2 = run'.2.2

theorem binding_same (h : TablesAlike byFreeNames names t r t' r') {x : String} (hx : names x) :
    Option.Rel Same (t.get? x) (t'.get? x) := by
  have hbinding := binding_alike (h x hx)
  generalize t.get? x = a, t'.get? x = a' at hbinding ⊢
  cases hbinding with
  | none => exact .none
  | some hv => exact .some (same_of_alike hv)

/-- **Scripts.** Where the mentioned names agree, the steps are the same, and so is what the names are bound to. -/
theorem run_same (ts : List Token) (h : AgreeOn (Mentioned ts) t r t' r') (policy : ErrorPolicy) (id id' n : Nat) :
    SameRuns (Mentioned ts) ((Run.start ts t id).take r policy n) ((Run.start ts t' id').take r' policy n) := by
  have hruns : RunsAlike byFreeNames 0 0 (Mentioned ts) r r' (.start ts t id) (.start ts t' id') :=
    ⟨(Token.map_shift_zero ts).symm, rfl, h.tablesAlike, trivial, rfl, fun us stop s hus hparse x hx =>
      counted_known (Leaves.parse_over hparse (known_of_mem hus)) hx⟩
  obtain ⟨hsteps, hlast, hended⟩ := take_alike policy n hruns
  exact ⟨hsteps.imp fun _ _ => sameStep_of_alike, fun x hx => binding_same hlast.tables hx, hended⟩

theorem execute_untouched {ts : List Token} {x : String} (hx : ¬ Mentioned ts x) {kind : StatementKind}
    (hkind : kind.Over (Known ts)) {t' : Bindings Value} {v : Value} {id id' : Nat}
    (h : kind.execute r t id = .ok ((v, t'), id')) : t'.get? x = t.get? x := by
  have hset : ∀ name w, Known ts (.name name) → (t.set name w).get? x = t.get? x := by
    intro name w hname
    rw [Bindings.get?_set, if_neg]
    rintro rfl
    exact hx (hname x rfl)
  cases kind with
  | empty => cases h; rfl
  | evaluate e =>
    rw [RunFold.execute_evaluate] at h
    obtain ⟨p, -, hp⟩ := Readers.map_eq_ok h
    cases hp
    rfl
  | assign name e =>
    rw [RunFold.execute_assign] at h
    obtain ⟨p, -, hp⟩ := Readers.map_eq_ok h
    cases hp
    exact hset name _ hkind.1
  | define name params body => cases h; exact hset name _ hkind.1

/-- **A name that no token mentions keeps its binding.** -/
theorem run_untouched {ts : List Token} {x : String} (hx : ¬ Mentioned ts x) (policy : ErrorPolicy) (n : Nat) {run : Run}
    (hts : ∀ u ∈ run.tokens, u ∈ ts) : (run.take r policy n).2.1.table.get? x = run.table.get? x := by
  have hkeep : Invariants.StatementsKeep r (Known ts) (fun t => t.get? x = run.table.get? x) fun _ => True :=
    fun kind t t' v id id' hkind ht hrun => ⟨trivial, (execute_untouched hx hkind hrun).trans ht⟩
  exact (Invariants.take_keeps hkeep n ⟨known_of_mem hts, rfl⟩).2.table

/-! ## Plugins -/

/-- a registry keeps the functions and the constants of another -/
structure Extends (r r' : Registry) : Prop where
  functions : ∀ x entry, r.get? x = some entry → r'.get? x = some entry
  constants : r'.constants = r.constants

theorem Extends.refl (r : Registry) : Extends r r := ⟨fun _ _ h => h, rfl⟩

theorem Extends.trans {r r' r'' : Registry} (h : Extends r r') (h' : Extends r' r'') : Extends r r'' :=
  ⟨fun x entry hentry => h'.functions x entry (h.functions x entry hentry), h'.constants.trans h.constants⟩

/-- A name that is taken is not registered again. -/
theorem register_extends {name : String} {info : FunctionInfo} {call : NativeCall} {source : Source} {id : Nat}
    (h : r.register name info call source id = .ok r') : Extends r r' := by
  obtain ⟨hfree, hconstants, hget⟩ := Invariants.register_eq_ok h
  refine ⟨fun x entry hentry => ?_, hconstants⟩
  have hne : x ≠ name := by
    rintro rfl
    rw [hfree] at hentry
    cases hentry
  rw [hget, if_neg hne, hentry]

/-- **Loading plugins keeps what is there.** -/
theorem load_extends (enabled reportConflicts : Bool) (source : PluginSource) (roots : List String)
    (stock : Plugin.Stock) :
    Extends stock.registry (loadPlugins enabled reportConflicts source roots stock).stock.registry := by
  have hkeep : Invariants.RegistrationKeeps (fun _ => True) (Extends stock.registry) :=
    fun r r' name info call source id _ h hr => h.trans (register_extends hr)
  exact Invariants.load_keeps hkeep enabled reportConflicts (fun _ _ _ _ _ _ _ _ => trivial) (.refl _)

theorem Extends.agreeOn (h : Extends r r') (t : Bindings Value) (hnew : ∀ x, names x → r.get? x = none → r'.get? x = none) :
    AgreeOn names t r t r' := by
  refine ⟨fun _ _ => rfl, fun x _ => ?_, fun x hx => ?_⟩
  · unfold Registry.constant?
    rw [h.constants]
  · unfold Registry.function?
    cases hget : r.get? x with
    | none => rw [hnew x hx hget]
    | some entry => rw [h.functions x entry hget]

/-! ## Main result -/

/-- **Only free names matter.** An expression whose free names agree in two pairs of a table and a registry has the same
failure in both, or values that nothing tells apart, also inside of a call. A script whose mentioned names agree has the
same steps, and leaves the same bindings under these names and its table as it was under all others. Loading plugins keeps
every function and constant, and so changes no script that mentions none of the names that it adds. -/
theorem free_names_suffice :
    (∀ (e : Expr) (t t' : Bindings Value) (r r' : Registry) (params : List String) (args : List Value)
      (calls id id' : Nat), AgreeOn (· ∈ e.free) t r t' r' →
        Outcomes Eq (fun p p' => Same p.1 p'.1) (evaluate (callClosure calls) ⟨params, args, t, r⟩ e id)
          (evaluate (callClosure calls) ⟨params, args, t', r'⟩ e id')) ∧
    (∀ (ts : List Token) (t t' : Bindings Value) (r r' : Registry) (policy : ErrorPolicy) (id id' n : Nat),
      AgreeOn (Mentioned ts) t r t' r' →
        SameRuns (Mentioned ts) ((Run.start ts t id).take r policy n) ((Run.start ts t' id').take r' policy n)) ∧
    (∀ (ts : List Token) (t : Bindings Value) (r : Registry) (policy : ErrorPolicy) (id n : Nat) (x : String),
      ¬ Mentioned ts x → ((Run.start ts t id).take r policy n).2.1.table.get? x = t.get? x) ∧
    (∀ (enabled reportConflicts : Bool) (source : PluginSource) (roots : List String) (stock : Plugin.Stock),
      let r := stock.registry
      let r' := (loadPlugins enabled reportConflicts source roots stock).stock.registry
      Extends r r' ∧
      ∀ (ts : List Token) (t : Bindings Value) (policy : ErrorPolicy) (id id' n : Nat),
        (∀ x, Mentioned ts x → r.get? x = none → r'.get? x = none) →
          SameRuns (Mentioned ts) ((Run.start ts t id).take r policy n) ((Run.start ts t id').take r' policy n)) := by
  refine ⟨?_, ?_, ?_, ?_⟩
  · intro e t t' r r' params args calls id id' h
    exact evaluate_same e h params args calls id id'
  · intro ts t t' r r' policy id id' n h
    exact run_same ts h policy id id' n
  · intro ts t r policy id n x hx
    exact run_untouched hx policy n fun u hu => hu
  · intro enabled reportConflicts source roots stock r r'
    have hextends : Extends r r' := load_extends enabled reportConflicts source roots stock
    exact ⟨hextends, fun ts t policy id id' n hnew => run_same ts (hextends.agreeOn t hnew) policy id id' n⟩

/-! ## Witness: a function made in two tables -/

/-- `fn(x) => x + a` -/
def adder : Expr :=
  .lambda ⟨0, 14⟩ ["x"] (.binary ⟨9, 14⟩ .add (.var ⟨9, 10⟩ "x") (.var ⟨13, 14⟩ "a"))

/-- a table that binds `a` -/
def small : Bindings Value := Bindings.empty.set "a" (.integer 1)

/-- a table that binds `b` as well -/
def large : Bindings Value := small.set "b" (.integer 2)

/-- the tokens of `a` -/
def mention : List Token := [⟨.name "a", ⟨0, 1⟩⟩]

theorem agreeOn_a {names : String → Prop} (h : ∀ x, names x → x = "a") : AgreeOn names small .empty large .empty := by
  refine ⟨fun x hx => ?_, fun _ _ => rfl, fun _ _ => rfl⟩
  rw [h x hx]
  rfl

/-- The tables differ. Capturing one or the other makes the same function, and a script that mentions only `a` is the same
in both. -/
theorem adder_same :
    small.get? "b" ≠ large.get? "b" ∧ AgreeOn (· ∈ adder.free) small .empty large .empty ∧
      Outcomes Eq (fun p p' => Same p.1 p'.1) (evaluate (callClosure maxCalls) ⟨[], [], small, .empty⟩ adder 0)
        (evaluate (callClosure maxCalls) ⟨[], [], large, .empty⟩ adder 7) ∧
      AgreeOn (Mentioned mention) small .empty large .empty ∧
      SameRuns (Mentioned mention) ((Run.start mention small 0).take .empty .halt 2)
        ((Run.start mention large 7).take .empty .halt 2) := by
  have hexpr : AgreeOn (· ∈ adder.free) small .empty large .empty := by
    refine agreeOn_a fun x hx => ?_
    simpa [adder, Expr.free] using hx
  have hscript : AgreeOn (Mentioned mention) small .empty large .empty := by
    refine agreeOn_a fun x hx => ?_
    obtain ⟨t, ht, hname⟩ := hx
    rw [List.mem_singleton.1 ht] at hname
    cases hname
    rfl
  have hlarge : large.get? "b" = some (.integer 2) := rfl
  have hsmall : small.get? "b" = none := rfl
  refine ⟨?_, hexpr, free_names_suffice.1 adder small large .empty .empty [] [] maxCalls 0 7 hexpr, hscript,
    free_names_suffice.2.1 mention small large .empty .empty .halt 0 7 2 hscript⟩
  rw [hlarge, hsmall]
  exact (Option.some_ne_none _).symm

end FreeNames

end CurveScript
