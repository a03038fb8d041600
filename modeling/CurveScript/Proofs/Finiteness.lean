/-
Every float that comes out of a script is finite.

A script can hide floats: in the table that a function captured, in the literals of its body, in the constants of its
registry, in the range of a graph. `Part` lists all such places, and a value is finite throughout if every float that is
reached from it by parts is finite. Literals are checked when they are read, operators and native functions check their
results, negation keeps a double finite, and everything else only passes values on.

Results:
- `isFinite_neg`: the negation of a finite double is finite, by its bit pattern.
- `unary_yields`, `native_yields`: operators before a value, which check nothing, and native functions.
- `finiteness`: evaluation passes finiteness on, so expressions and calls give it. `execute_keeps`: statements; runs
  follow by `take_keeps`.
- `furnished_stocked`: the standard library and plugins bring finite constants, and functions in which nothing is found.
- `load_furnished`: a registry that plugins were loaded into is one of those that the main result is about.
- `scripts_finite`: the outputs and the table of a run, and the calls of what is found in them.
Witness: `reciprocal_finite`, a script with a plugin function, a graph and a result that is too large.
-/
import Mathlib
import CurveScript.Plugin.Demo
import CurveScript.Proofs.Doubles
import CurveScript.Proofs.Numbers

namespace CurveScript

mutual

/-- the float literals of an expression -/
def Expr.floats : Expr → List Float
  | .integer _ _ | .var _ _ => []
  | .float _ x => [x]
  | .unary _ _ e => e.floats
  | .binary _ _ l r => l.floats ++ r.floats
  | .call _ f args => f.floats ++ Expr.floatsAll args
  | .lambda _ _ body => body.floats

/-- the float literals of expressions -/
def Expr.floatsAll : List Expr → List Float
  | [] => []
  | e :: es => e.floats ++ Expr.floatsAll es

end

namespace Finiteness

open CurveScript.Invariants CurveScript.Numbers CurveScript.Preservation

/-! ## Negation -/

section Doubles

open Float.Model Float.Model.UnpackedFloat

/-- the exponent field of the patterns that stand for no finite number -/
abbrev reserved : BitVec 11 := -1#_

theorem isFinite_unpack {b : BitVec Format.binary64.numBits} :
    (UnpackedFloat.unpack Format.binary64 b).isFinite = true ↔ unpackExponent b ≠ reserved := by
  unfold UnpackedFloat.unpack
  by_cases h : unpackExponent b = reserved
  · simp only [h, if_true]
    split <;> simp [UnpackedFloat.isFinite]
  · simp only [h, if_false]
    split
    · split <;> simp [UnpackedFloat.isFinite, h]
    · simp [UnpackedFloat.isFinite, h]

/-- the exponent field that a number with the exponent `e` is packed with, before it is cut to its width -/
def biased (e : Int) : Nat := (e + 1023 + 52).toNat

/-- A number that was unpacked has an exponent that fits in its field. -/
theorem biased_unpack {b : BitVec Format.binary64.numBits} {s : Sign} {m : Nat} {e : Int} {hm : 0 < m}
    (h : UnpackedFloat.unpack Format.binary64 b = .finite s m e hm) : biased e + 1 < 2048 := by
  obtain ⟨-, hexponent⟩ := Doubles.canonical_unpack h
  unfold biased
  omega

theorem isFinite_pack_zero (s : Sign) : (Float.Model.pack (.zero s)).isFinite = true := by
  refine isFinite_unpack.2 ?_
  simp [Float.Model.pack, UnpackedFloat.pack, packedZero]

theorem isFinite_pack_finite {s : Sign} {m : Nat} {e : Int} {hm : 0 < m} (h : biased e + 1 < 2048) :
    (Float.Model.pack (.finite s m e hm)).isFinite = true := by
  refine isFinite_unpack.2 ?_
  have hover : ¬ 2 ^ 11 ≤ biased e + 1 := by omega
  have hbiased : (e + Format.binary64.exponentBias + Format.binary64.mantissaBitsWithoutImplicit).toNat = biased e := rfl
  simp only [Float.Model.pack, UnpackedFloat.pack, hbiased, hover, if_false]
  split
  · rw [unpackExponent_packComponents]
    intro heq
    have hnat : biased e % 2048 = 2047 := by simpa using congrArg BitVec.toNat heq
    omega
  · rw [unpackExponent_packComponents]
    decide

/-- **The negation of a finite double is finite.** -/
theorem isFinite_neg {x : Float} (h : x.isFinite = true) : (-x).isFinite = true := by
  change (Float.Model.pack x.toModel.unpack.neg).isFinite = true
  change x.toModel.unpack.isFinite = true at h
  cases hu : x.toModel.unpack with
  | notANumber => rw [hu] at h; cases h
  | infinity s => rw [hu] at h; cases h
  | zero s => exact isFinite_pack_zero _
  | finite s m e hm => exact isFinite_pack_finite (biased_unpack hu)

end Doubles

/-! ## Where floats can hide -/

/-- the numbers of a range -/
def numbers (r : SampleRange) : List Float := [r.start, r.stop, r.step]

/-- what is found in a value: what a function captured or has of its own, the literals of its body, the constants and
functions that its body can name, ranges, and the function of a graph -/
inductive Part : Value → Value → Prop where
  | captured {f c x w} (hf : f.body = .script c) (hw : c.captured.get? x = some w) : Part (.function f) w
  | constant {f c x y} (hf : f.body = .script c) (hy : c.registry.constant? x = some y) : Part (.function f) (.float y)
  | native {f c x g} (hf : f.body = .script c) (hg : c.registry.function? x = some g) : Part (.function f) (.function g)
  | literal {f c y} (hf : f.body = .script c) (hy : y ∈ c.body.floats) : Part (.function f) (.float y)
  | own {f arity call w} (hf : f.body = .native arity call) (hw : Own call w) : Part (.function f) w
  | functionRange {f r y} (hr : f.ownRange = some r) (hy : y ∈ numbers r) : Part (.function f) (.float y)
  | plotted (g : Graph) : Part (.graph g) (.function g.function)
  | graphRange {g r y} (hr : g.ownRange = some r) (hy : y ∈ numbers r) : Part (.graph g) (.float y)

/-- `w` is reached from `v` by parts -/
def Holds : Value → Value → Prop := Relation.ReflTransGen Part

/-- every float that is reached from the value is finite -/
def AllFinite (v : Value) : Prop := ∀ x, Holds v (.float x) → x.isFinite = true

/-- every float that is reached from a binding is finite -/
def TableFinite (t : Bindings Value) : Prop := ∀ x v, t.get? x = some v → AllFinite v

/-- the constants are finite, and every float that is reached from a function -/
structure RegistryFinite (r : Registry) : Prop where
  constants : ∀ x y, r.constant? x = some y → y.isFinite = true
  functions : ∀ x f, r.function? x = some f → AllFinite (.function f)

/-- every float that is reached from the closure is finite -/
structure ClosureFinite (c : Closure) : Prop where
  captured : TableFinite c.captured
  registry : RegistryFinite c.registry
  literals : ∀ y ∈ c.body.floats, y.isFinite = true

theorem AllFinite.of_holds {v w : Value} (h : AllFinite v) (hw : Holds v w) : AllFinite w :=
  fun x hx => h x (Relation.ReflTransGen.trans hw hx)

theorem AllFinite.part {v w : Value} (h : AllFinite v) (hw : Part v w) : AllFinite w :=
  h.of_holds (Relation.ReflTransGen.single hw)

theorem AllFinite.isFinite {x : Float} (h : AllFinite (.float x)) : x.isFinite = true :=
  h x Relation.ReflTransGen.refl

theorem allFinite_of_parts {v : Value} (hself : ∀ x, v = .float x → x.isFinite = true)
    (hparts : ∀ w, Part v w → AllFinite w) : AllFinite v := by
  intro x hx
  rcases Relation.ReflTransGen.cases_head hx with rfl | ⟨w, hw, hrest⟩
  · exact hself x rfl
  · exact hparts w hw x hrest

theorem allFinite_integer (n : Int64) : AllFinite (.integer n) := allFinite_of_parts nofun nofun

theorem allFinite_unit : AllFinite .unit := allFinite_of_parts nofun nofun

theorem allFinite_float {x : Float} (h : x.isFinite = true) : AllFinite (.float x) := by
  refine allFinite_of_parts (fun y hy => ?_) nofun
  cases hy
  exact h

/-- A function without a range holds what its closure holds. -/
theorem allFinite_script {name : Option String} {id : Nat} {c : Closure} (h : ClosureFinite c) :
    AllFinite (.function ⟨name, id, .script c, none⟩) := by
  refine allFinite_of_parts nofun fun w hw => ?_
  cases hw with
  | captured hf hw => cases hf; exact h.captured _ _ hw
  | constant hf hy => cases hf; exact allFinite_float (h.registry.constants _ _ hy)
  | native hf hg => cases hf; exact h.registry.functions _ _ hg
  | literal hf hy => cases hf; exact allFinite_float (h.literals _ hy)
  | own hf => cases hf
  | functionRange hr hy => cases hr

theorem closureFinite_of {f : FunctionValue} {c : Closure} (h : AllFinite (.function f)) (hf : f.body = .script c) :
    ClosureFinite c where
  captured _ _ hv := h.part (.captured hf hv)
  registry := ⟨fun _ _ hy => (h.part (.constant hf hy)).isFinite, fun _ _ hg => h.part (.native hf hg)⟩
  literals _ hy := (h.part (.literal hf hy)).isFinite

/-- a native function without a range, with no value of its own to give -/
inductive Bare : FunctionValue → Prop where
  | native {name : Option String} {id : Nat} {arity : Arity} {call : NativeCall} (h : ∀ v, ¬ Own call v) :
      Bare ⟨name, id, .native arity call, none⟩

/-- A bare function has no parts. -/
theorem bare_part {f : FunctionValue} (h : Bare f) (w : Value) : ¬ Part (.function f) w := by
  intro hw
  obtain ⟨hcall⟩ := h
  cases hw with
  | captured hf | constant hf | native hf | literal hf => cases hf
  | own hf hw => cases hf; exact hcall w hw
  | functionRange hr hy => cases hr

theorem bare_finite {f : FunctionValue} (h : Bare f) : AllFinite (.function f) :=
  allFinite_of_parts nofun fun w hw => absurd hw (bare_part h w)

/-- a range of finite numbers, or none -/
def RangeFinite (range : Option SampleRange) : Prop := ∀ r, range = some r → ∀ y ∈ numbers r, y.isFinite = true

theorem allFinite_graph {f : FunctionValue} {range : Option SampleRange} (hf : AllFinite (.function f))
    (hr : RangeFinite range) : AllFinite (.graph ⟨f, range⟩) := by
  refine allFinite_of_parts nofun fun w hw => ?_
  cases hw with
  | plotted => exact hf
  | graphRange hrange hy => exact allFinite_float (hr _ hrange _ hy)

theorem function?_finite {v : Value} {f : FunctionValue} (h : AllFinite v) (hf : v.function? = some f) :
    AllFinite (.function f) := by
  cases v with
  | function g => cases hf; exact h
  | graph g => cases hf; exact h.part (.plotted g)
  | _ => cases hf

/-! ## Operators -/

theorem allFinite_number {v : Value} (h : Number v) : AllFinite v := by
  cases h with
  | integer n => exact allFinite_integer n
  | float h => exact allFinite_float h

theorem negate_yields {v : Value} (h : AllFinite v) : Yields AllFinite v.negate := by
  unfold Value.negate
  split
  · split
    · exact yields_ok (allFinite_integer _)
    · exact yields_error _
  · exact yields_ok (allFinite_float (isFinite_neg h.isFinite))
  · exact yields_error _

/-- **Operators before a value** check nothing, and need a finite operand. -/
theorem unary_yields (op : UnaryOperator) {v : Value} (h : AllFinite v) : Yields AllFinite (v.unary op) := by
  cases op with
  | negate => exact negate_yields h
  | plus =>
    change Yields AllFinite v.identity
    unfold Value.identity
    split
    · exact yields_ok h
    · exact yields_error _

/-! ## Native functions -/

/-- The numbers of an admitted range are finite. -/
theorem admitted_finite {range : Option SampleRange} (h : Admitted range) : RangeFinite range := by
  intro r hr
  obtain ⟨low, high, step, hmade⟩ := h r hr
  unfold SampleRange.make? at hmade
  split at hmade
  · next h =>
    cases hmade
    simp only [SampleRange.admissible, Bool.and_eq_true] at h
    simp only [numbers, List.forall_mem_cons, List.not_mem_nil, false_imp_iff, implies_true, and_true]
    exact ⟨h.1.1.1.1.1, h.1.1.1.1.2, h.1.1.1.2⟩
  · cases hmade

/-- **Native functions** on arguments that are finite throughout. -/
theorem native_yields {f : FunctionValue} {arity : Arity} {call : NativeCall} (hf : AllFinite (.function f))
    (hbody : f.body = .native arity call) {args : List Value} (hargs : ∀ v ∈ args, AllFinite v) :
    Yields AllFinite (call.call args) := by
  intro w hw
  cases native_given hw with
  | number h => exact allFinite_number h
  | unit => exact allFinite_unit
  | argument h => exact hargs w h
  | graph hv hf _ hrange => exact allFinite_graph (function?_finite (hargs _ hv) hf) (admitted_finite hrange)
  | own h => exact hf.part (.own hbody h)

/-! ## Scopes -/

/-- every float that is reached from a scope is finite -/
structure ScopeFinite (s : Scope) : Prop where
  args : ∀ v ∈ s.args, AllFinite v
  table : TableFinite s.table
  registry : RegistryFinite s.registry

theorem tableFinite_set {t : Bindings Value} (h : TableFinite t) (name : String) {v : Value} (hv : AllFinite v) :
    TableFinite (t.set name v) := by
  intro x w hw
  rw [Bindings.get?_set] at hw
  split at hw
  · cases hw; exact hv
  · exact h x w hw

theorem mem_of_lookup {params : List String} {args : List Value} {x : String} {v : Value}
    (h : (params.zip args).lookup x = some v) : v ∈ args := by
  obtain ⟨before, after, hzip, -⟩ := List.lookup_eq_some_iff.1 h
  have hmem : (x, v) ∈ params.zip args := by rw [hzip]; simp
  exact (List.of_mem_zip hmem).2

theorem local?_finite {s : Scope} (h : ScopeFinite s) {x : String} {v : Value} (hv : s.local? x = some v) :
    AllFinite v := by
  unfold Scope.local? at hv
  split at hv
  · next w hw => cases hv; exact h.args _ (mem_of_lookup hw)
  · exact h.table x v hv

theorem lookup_yields {s : Scope} (h : ScopeFinite s) (x : String) : Yields AllFinite (s.lookup x) := by
  unfold Scope.lookup
  split
  · next v hv => exact yields_ok (local?_finite h hv)
  · split
    · next y hy => exact yields_ok (allFinite_float (h.registry.constants x y hy))
    · split
      · next f hf => exact yields_ok (h.registry.functions x f hf)
      · exact yields_error _

/-- a function from which only finite floats are reached -/
abbrev FunctionFinite (f : FunctionValue) : Prop := AllFinite (.function f)

theorem callable_yields {v : Value} (h : AllFinite v) : Yields FunctionFinite (Scope.callable v) := by
  unfold Scope.callable
  split
  · next f hf => exact yields_ok (function?_finite h hf)
  · exact yields_error _

theorem callee_yields {s : Scope} (h : ScopeFinite s) (x : String) : Yields FunctionFinite (s.callee x) := by
  unfold Scope.callee
  split
  · next v hv => exact callable_yields (local?_finite h hv)
  · split
    · next f hf => exact yields_ok (h.registry.functions x f hf)
    · exact yields_error _

theorem foldl_set_finite {pairs : List (String × Value)} (hpairs : ∀ p ∈ pairs, AllFinite p.2) {t : Bindings Value}
    (ht : TableFinite t) : TableFinite (pairs.foldl (fun t p => t.set p.1 p.2) t) := by
  induction pairs generalizing t with
  | nil => exact ht
  | cons p ps ih =>
    obtain ⟨hp, hps⟩ := List.forall_mem_cons.1 hpairs
    exact ih hps (tableFinite_set ht p.1 hp)

/-- What a function captures is what was in force where it was made. -/
theorem captured_finite {s : Scope} (h : ScopeFinite s) : TableFinite s.captured :=
  foldl_set_finite (fun p hp => h.args p.2 (List.of_mem_zip hp).2) h.table

/-! ## Expressions -/

theorem mem_floatsAll {e : Expr} {es : List Expr} (he : e ∈ es) {y : Float} (hy : y ∈ e.floats) :
    y ∈ Expr.floatsAll es := by
  induction es with
  | nil => cases he
  | cons d ds ih =>
    rw [Expr.floatsAll, List.mem_append]
    rcases List.mem_cons.1 he with rfl | he
    · exact Or.inl hy
    · exact Or.inr (ih he)

/-- The literals of a node right below the root are literals of the whole. -/
theorem mem_floats_of_child {e d : Expr} (hd : d ∈ Placement.children e) {y : Float} (hy : y ∈ d.floats) :
    y ∈ e.floats := by
  cases e with
  | integer | float | var => cases hd
  | unary | lambda =>
    rw [List.mem_singleton.1 hd] at hy
    rwa [Expr.floats]
  | binary _ _ l r =>
    rw [Expr.floats, List.mem_append]
    rcases List.mem_cons.1 hd with rfl | hd
    · exact Or.inl hy
    · rw [List.mem_singleton.1 hd] at hy
      exact Or.inr hy
  | call _ f args =>
    rw [Expr.floats, List.mem_append]
    rcases List.mem_cons.1 hd with rfl | hd
    · exact Or.inl hy
    · exact Or.inr (mem_floatsAll hd hy)

/-- **Finiteness is passed on**, from bindings and literals to what they give. -/
def finiteness : Trait where
  value := AllFinite
  scope := ScopeFinite
  expression e := ∀ y ∈ e.floats, y.isFinite = true
  child he hd y hy := he y (mem_floats_of_child hd hy)
  integer := allFinite_integer
  float he := allFinite_float (he _ (by simp [Expr.floats]))
  unit := allFinite_unit
  unary op _ hv := unary_yields op hv
  binary op v w u hu := allFinite_number (binary_number op v w u hu)
  lookup := lookup_yields
  callee := callee_yields
  callable := callable_yields
  native hf hbody hargs := native_yields hf hbody hargs
  body hf hbody hargs := by
    have hclosure := closureFinite_of hf hbody
    exact ⟨⟨hargs, hclosure.captured, hclosure.registry⟩, hclosure.literals⟩
  made name id params _ hs hbody := allFinite_script ⟨captured_finite hs, hs.registry, hbody⟩

/-- Calling what a finite value is or plots with a finite number. -/
theorem invoke_gives {v : Value} (h : AllFinite v) {x : Float} (hx : x.isFinite = true) :
    Gives AllFinite (v.invoke x) := by
  have hargs : ∀ w ∈ [Value.float x], AllFinite w := by
    intro w hw
    rw [List.mem_singleton.1 hw]
    exact allFinite_float hx
  unfold Value.invoke
  split
  · next f hf => exact finiteness.callWith_gives (Trait.callClosure_gives maxCalls) (function?_finite h hf) hargs
  · exact gives_fail _

/-! ## Literals -/

/-- a token that is no float, or a finite one -/
def FiniteKind (k : TokenKind) : Prop := ∀ x, k = .number (.float x) → x.isFinite = true

theorem read_finite {text : List Char} {span : Span} {n : Literal} (h : Literal.read text span = .ok n) :
    FiniteKind (.number n) := by
  unfold Literal.read at h
  split at h
  · split at h
    · cases h
    · split at h
      · next hfinite => cases h; intro x hx; cases hx; exact hfinite
      · cases h
  · split at h
    · cases h; exact nofun
    · cases h

theorem ofLexeme_finite {l : Lexeme} {t : Token} (h : Token.ofLexeme l = .ok t) : FiniteKind t.kind := by
  unfold Token.ofLexeme at h
  split at h
  case h_1 =>
    obtain ⟨n, hn, rfl⟩ := Readers.map_eq_ok h
    exact read_finite hn
  case h_3 =>
    cases h
    unfold Token.nameKind
    split <;> exact nofun
  all_goals cases h
  all_goals exact nofun

theorem ofLexemes_finite {afterOperand : Bool} {ls : List Lexeme} {ts : List Token}
    (h : Token.ofLexemes afterOperand ls = .ok ts) : ∀ t ∈ ts, FiniteKind t.kind := by
  fun_induction Token.ofLexemes afterOperand ls generalizing ts with
  | case1 afterOperand => cases h; exact nofun
  | case2 afterOperand l =>
    obtain ⟨t, ht, rfl⟩ := Readers.map_eq_ok h
    exact List.forall_mem_singleton.2 (ofLexeme_finite ht)
  | case3 => cases h
  | case4 afterOperand l next ls hjoins t ht ih =>
    obtain ⟨rest, hrest, rfl⟩ := Readers.map_eq_ok h
    exact List.forall_mem_cons.2 ⟨ofLexeme_finite ht, ih hrest⟩
  | case5 => cases h
  | case6 afterOperand l next ls hjoins t ht ih =>
    obtain ⟨rest, hrest, rfl⟩ := Readers.map_eq_ok h
    exact List.forall_mem_cons.2 ⟨ofLexeme_finite ht, ih hrest⟩

mutual

/-- The literals of an expression are leaves. -/
theorem floats_finite : ∀ e : Expr, e.Over FiniteKind → ∀ y ∈ e.floats, y.isFinite = true
  | .integer _ _, _ | .var _ _, _ => by simp [Expr.floats]
  | .float _ x, he => by
    simp only [Expr.floats, List.forall_mem_singleton]
    exact he x rfl
  | .unary _ _ e, he => by
    simp only [Expr.Over] at he
    simp only [Expr.floats]
    exact floats_finite e he
  | .binary _ _ l r, he => by
    simp only [Expr.Over] at he
    simp only [Expr.floats, List.forall_mem_append]
    exact ⟨floats_finite l he.1, floats_finite r he.2⟩
  | .call _ f args, he => by
    simp only [Expr.Over] at he
    simp only [Expr.floats, List.forall_mem_append]
    exact ⟨floats_finite f he.1, floatsAll_finite args he.2⟩
  | .lambda _ _ body, he => by
    simp only [Expr.Over] at he
    simp only [Expr.floats]
    exact floats_finite body he.2

theorem floatsAll_finite : ∀ es : List Expr, Expr.OverAll FiniteKind es → ∀ y ∈ Expr.floatsAll es, y.isFinite = true
  | [], _ => by simp [Expr.floatsAll]
  | e :: es, he => by
    simp only [Expr.OverAll] at he
    simp only [Expr.floatsAll, List.forall_mem_append]
    exact ⟨floats_finite e he.1, floatsAll_finite es he.2⟩

end

/-! ## Statements -/

/-- **Statements** keep a finite table, and their values are finite. -/
theorem execute_keeps {registry : Registry} (hr : RegistryFinite registry) :
    StatementsKeep registry FiniteKind TableFinite AllFinite :=
  finiteness.execute_keeps floats_finite fun _ ht => ⟨nofun, ht, hr⟩

/-! ## Registries -/

/-- a registry that is made of the standard library and plugin functions -/
inductive Furnished : Registry → Prop where
  | standard (id : Nat) : Furnished (.standard id)
  | plugin {r r' : Registry} {name : String} {info : FunctionInfo} {f : Plugin.ExportedFunction} {source : Source}
      {id : Nat} (h : Furnished r) (hr : r.register name info (.plugin f) source id = .ok r') : Furnished r'

/-- finite constants, and bare functions only -/
structure Stocked (r : Registry) : Prop where
  constants : ∀ x y, r.constant? x = some y → y.isFinite = true
  functions : ∀ x f, r.function? x = some f → Bare f

theorem register_stocked {r r' : Registry} {name : String} {info : FunctionInfo} {call : NativeCall} {source : Source}
    {id : Nat} (h : Stocked r) (hcall : ∀ v, ¬ Own call v)
    (hr : r.register name info call source id = .ok r') : Stocked r' := by
  obtain ⟨-, hconstants, hget⟩ := register_eq_ok hr
  refine ⟨fun x y hy => ?_, fun x f hf => ?_⟩
  · unfold Registry.constant? at hy
    rw [hconstants] at hy
    exact h.constants x y hy
  · obtain ⟨entry, hentry, rfl⟩ := Option.map_eq_some_iff.1 hf
    rw [hget] at hentry
    split at hentry
    · cases hentry
      exact .native hcall
    · exact h.functions x _ (Option.map_eq_some_iff.2 ⟨entry, hentry, rfl⟩)

theorem withBuiltins_stocked {r : Registry} (h : Stocked r) (id : Nat) (bs : List Builtin) :
    Stocked (r.withBuiltins id bs) := by
  induction bs generalizing r id with
  | nil => exact h
  | cons b bs ih =>
    refine ih ?_ (id + 1)
    unfold Registry.withFunction
    split
    · next hr => exact register_stocked h (fun _ hcall => by cases hcall) hr
    · exact h

theorem withConstant_stocked {r : Registry} (h : Stocked r) {c : Constant} (hc : c.value.isFinite = true) :
    Stocked (r.withConstant c) := by
  refine ⟨fun x y hy => ?_, h.functions⟩
  obtain ⟨d, hd, rfl⟩ := Option.map_eq_some_iff.1 hy
  have hd' : (r.constants.set c.name c).get? x = some d := hd
  rw [Bindings.get?_set] at hd'
  split at hd'
  · cases hd'; exact hc
  · exact h.constants x _ (Option.map_eq_some_iff.2 ⟨d, hd', rfl⟩)

theorem standard_stocked (id : Nat) : Stocked (.standard id) := by
  have hempty : Stocked .empty := ⟨nofun, nofun⟩
  have hbuiltins := withBuiltins_stocked hempty id Builtin.all
  have hpi : Constant.pi.value.isFinite = true := by decide +kernel
  have he : Constant.e.value.isFinite = true := by decide +kernel
  exact withConstant_stocked (withConstant_stocked hbuiltins hpi) he

theorem furnished_stocked {r : Registry} (h : Furnished r) : Stocked r := by
  induction h with
  | standard id => exact standard_stocked id
  | plugin _ hr ih => exact register_stocked ih (fun _ hcall => by cases hcall) hr

theorem furnished_finite {r : Registry} (h : Furnished r) : RegistryFinite r where
  constants := (furnished_stocked h).constants
  functions x f hf := bare_finite ((furnished_stocked h).functions x f hf)

/-- a function of a plugin library -/
def IsPlugin (call : NativeCall) : Prop := ∃ f, call = .plugin f

open CurveScript.Plugin in
/-- A library lists functions of its own only. -/
theorem openPlugin_lists (path : String) (b : Binary) : Lists IsPlugin (.ok (b.openPlugin path)) := by
  intro m fs hm hfs f hf
  cases hm' : b.openPlugin path with
  | error e => rw [hm'] at hm; cases hm
  | ok m' =>
    rw [hm'] at hm
    cases hm
    unfold Binary.openPlugin at hm'
    split at hm'
    · cases hm'
    · cases hm'
    · split at hm'
      · cases hm'
      · cases hm'
        cases hfs
        obtain ⟨p, -, rfl⟩ := List.mem_map.1 hf
        exact ⟨p, rfl⟩

/-- **Loading plugin libraries** into the standard library, or into what was loaded before, makes such a registry. -/
theorem load_furnished (enabled reportConflicts : Bool) {source : PluginSource} {roots : List String}
    (hsource : ∀ c ∈ (source roots).candidates, ∃ b : Plugin.Binary, c.2 = .ok (b.openPlugin c.1))
    {stock : Plugin.Stock} (h : Furnished stock.registry) :
    Furnished (loadPlugins enabled reportConflicts source roots stock).stock.registry := by
  have hkeep : RegistrationKeeps IsPlugin Furnished := by
    rintro r r' name info call source id ⟨f, rfl⟩ hfurnished hr
    exact .plugin hfurnished hr
  refine load_keeps hkeep enabled reportConflicts (fun c hc => ?_) h
  obtain ⟨b, hb⟩ := hsource c hc
  rw [hb]
  exact openPlugin_lists c.1 b

/-! ## Main result -/

/-- **Every float that comes out of a script is finite.** The values of any number of statements, and the table after
them, hold finite floats only; and calling anything that is found in them with a finite number fails or gives a value
that holds finite floats only. -/
theorem scripts_finite {source : String} {tokens : List Token} {registry : Registry} {table : Bindings Value}
    (htokens : Token.tokenize source = .ok tokens) (hregistry : Furnished registry) (htable : TableFinite table)
    (policy : ErrorPolicy) (id n : Nat) :
    let run := (Run.start tokens table id).take registry policy n
    (∀ s ∈ run.1, ∀ v, s.output = .ok v → AllFinite v) ∧ TableFinite run.2.1.table ∧
      ∀ v, ((∃ s ∈ run.1, s.output = .ok v) ∨ ∃ x, run.2.1.table.get? x = some v) → ∀ w, Holds v w →
        ∀ (x : Float) (callId : Nat), x.isFinite = true →
          (∃ e, w.invoke x callId = .error e) ∨ ∃ y callId', w.invoke x callId = .ok (y, callId') ∧ AllFinite y := by
  intro run
  have hstart : RunHas FiniteKind TableFinite (.start tokens table id) := ⟨ofLexemes_finite htokens, htable⟩
  obtain ⟨houtputs, hlast⟩ := take_keeps (execute_keeps (furnished_finite hregistry)) n hstart
  refine ⟨houtputs, hlast.table, fun v hv w hw x callId hx => ?_⟩
  have hfinite : AllFinite v := by
    rcases hv with ⟨s, hs, hv⟩ | ⟨name, hv⟩
    · exact houtputs s hs v hv
    · exact hlast.table name v hv
  have hcall := invoke_gives (hfinite.of_holds hw) hx callId
  cases hinvoke : w.invoke x callId with
  | error e => exact Or.inl ⟨e, rfl⟩
  | ok p => exact Or.inr ⟨p.1, p.2, rfl, hcall p hinvoke⟩

/-! ## Witness: a reciprocal -/

/-- the step from 0 to 1, as a plugin exports it -/
def unitStep : Plugin.ExportedFunction := ⟨"step", "demo", 1, Plugin.Demo.step.entry⟩

/-- the standard library with a plugin function -/
def furnished : Registry :=
  match (Registry.standard 0).register "step" unitStep.info (.plugin unitStep) (.plugin "demo") 18 with
  | .ok r => r
  | .error _ => .standard 0

theorem furnished_furnished : Furnished furnished := by
  unfold furnished
  split
  · next hr => exact .plugin (.standard 0) hr
  · exact .standard 0

/-- a function, a graph, a call, and a product that is too large -/
def reciprocal : String := "f(x) = step(x) / x\ng = plot(f, 1, 2)\nf(4)\n1e308 * 10"

/-- the tokens of the script -/
def reciprocalTokens : List Token :=
  match Token.tokenize reciprocal with
  | .ok ts => ts
  | .error _ => []

/-- Three statements succeed and the fourth is an overflow; nothing that the script leaves behind holds an infinity. -/
theorem reciprocal_finite :
    ∃ tokens, Token.tokenize reciprocal = .ok tokens ∧ Furnished furnished ∧ TableFinite .empty ∧
      ((Run.start tokens .empty 19).take furnished .goOn 9).1.map (fun s => s.output.isOk) =
        [true, true, true, false] ∧
      TableFinite ((Run.start tokens .empty 19).take furnished .goOn 9).2.1.table := by
  have hempty : TableFinite .empty := nofun
  have htokens : ∃ tokens, Token.tokenize reciprocal = .ok tokens := Readers.exists_of_isOk (by decide +kernel)
  have houtputs : ((Run.start reciprocalTokens .empty 19).take furnished .goOn 9).1.map (fun s => s.output.isOk) =
      [true, true, true, false] := by decide +kernel
  obtain ⟨tokens, htokens⟩ := htokens
  have hsame : reciprocalTokens = tokens := by rw [reciprocalTokens, htokens]
  rw [hsame] at houtputs
  exact ⟨tokens, htokens, furnished_furnished, hempty, houtputs,
    (scripts_finite htokens furnished_furnished hempty .goOn 19 9).2.1⟩

end Finiteness

end CurveScript
