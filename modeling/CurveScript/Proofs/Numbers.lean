/-
What operators and native functions give.

An operator between values gives a number, and so does each native function but a few: plotting gives a graph of the
function that it was handed, and a host function may give one of its arguments, nothing, or a value of its own. Numbers
that are given are integers or finite floats, since every float result is checked.

Results:
- `binary_number`: operators between values.
- `builtin_number`, `plugin_number`: built-in functions apart from plotting, and plugin functions.
- `plot_gives`: plotting, with what it has checked.
- `native_given`: all native functions.
-/
import CurveScript.Proofs.Preservation

namespace CurveScript.Numbers

open CurveScript.Preservation

/-! ## Operators -/

/-- an integer, or a finite float -/
inductive Number : Value → Prop where
  | integer (n : Int64) : Number (.integer n)
  | float {x : Float} (h : x.isFinite = true) : Number (.float x)

theorem number?_isSome (v : Value) : v.number?.isSome = v.isNumeric := by cases v <;> rfl

theorem number?_some {v : Value} (h : v.isNumeric = true) : ∃ x, v.number? = some x :=
  Option.isSome_iff_exists.1 ((number?_isSome v).trans h)

theorem number?_none {v : Value} (h : v.isNumeric = false) : v.number? = none := by
  rw [← Option.not_isSome_iff_eq_none, number?_isSome, h]
  decide

theorem finite_number (op : BinaryOperator) (x : Float) : Yields Number (Value.finite op x) := by
  unfold Value.finite
  split
  · next h => exact yields_ok (.float h)
  · exact yields_error _

theorem checked_number (op : BinaryOperator) (n : Option Int64) : Yields Number (Value.checked op n) := by
  unfold Value.checked
  split
  · exact yields_ok (.integer _)
  · exact yields_error _

theorem power_number (x y : Float) : Yields Number (Value.power x y) := by
  unfold Value.power
  split
  · exact yields_error _
  · dsimp only
    split
    · exact yields_error _
    · exact finite_number _ _

theorem integerPower_number (a b : Int64) : Yields Number (Value.integerPower a b) := by
  unfold Value.integerPower
  split
  · exact power_number _ _
  · split
    · exact yields_error _
    · exact checked_number _ _

theorem integerOperation_number (op : BinaryOperator) (a b : Int64) :
    Yields Number (Value.integerOperation op a b) := by
  unfold Value.integerOperation
  split
  · exact checked_number _ _
  · exact checked_number _ _
  · exact checked_number _ _
  · split
    · exact yields_error _
    · exact finite_number _ _
  · split
    · exact yields_error _
    · exact checked_number _ _
  · exact integerPower_number _ _
  · exact yields_ok (.integer _)

theorem floatOperation_number (op : BinaryOperator) (x y : Float) : Yields Number (Value.floatOperation op x y) := by
  unfold Value.floatOperation
  split
  · exact finite_number _ _
  · exact finite_number _ _
  · exact finite_number _ _
  · split
    · exact yields_error _
    · exact finite_number _ _
  · split
    · exact yields_error _
    · exact finite_number _ _
  · exact power_number _ _
  · exact yields_ok (.integer _)

/-- **Operators between values** give numbers, whatever their operands are. -/
theorem binary_number (op : BinaryOperator) (v w : Value) : Yields Number (Value.binary op v w) := by
  unfold Value.binary
  split
  · exact yields_error _
  · exact integerOperation_number op _ _
  · exact floatOperation_number op _ _

/-! ## Built-in functions -/

theorem float_number (name : String) (x : Float) : Yields Number (Builtin.float name x) := by
  unfold Builtin.float
  split
  · exact yields_error _
  · split
    · next h => exact yields_ok (.float h)
    · exact yields_error _

theorem ofNumber_number (name : String) (args : List Value) (fn : Float → Float) :
    Yields Number (Builtin.ofNumber name args fn) := by
  unfold Builtin.ofNumber
  split
  · exact yields_error _
  · exact float_number _ _

theorem ofNumberWhere_number (name : String) (args : List Value) (accepted : Float → Bool) (requirement : String)
    (fn : Float → Float) : Yields Number (Builtin.ofNumberWhere name args accepted requirement fn) := by
  unfold Builtin.ofNumberWhere
  split
  · exact yields_error _
  · split
    · exact float_number _ _
    · exact yields_error _

theorem absolute_number (args : List Value) : Yields Number (Builtin.absolute args) := by
  -- any partial operation on integers will do, and the bounds of the integers are too large to unfold this one
  obtain ⟨size, hsize⟩ : ∃ size, Integer.abs? = size := ⟨_, rfl⟩
  unfold Builtin.absolute
  rw [hsize]
  split
  · split
    · exact yields_ok (.integer _)
    · exact yields_error _
  · exact ofNumber_number _ _ _

theorem rounding_number (name : String) (args : List Value) (fn : Float → Float) :
    Yields Number (Builtin.rounding name args fn) := by
  unfold Builtin.rounding
  split
  · exact yields_ok (.integer _)
  · exact ofNumber_number _ _ _

theorem builtinPower_number (args : List Value) : Yields Number (Builtin.power args) := by
  unfold Builtin.power
  split
  · exact yields_error _
  · split
    · exact binary_number _ _ _
    · exact yields_error _

/-- The best of some values is one of them. -/
theorem bestOf_mem (name : String) (pick : BinaryOperator) (best : Value) (vs : List Value) :
    Yields (· ∈ best :: vs) (Builtin.bestOf name pick best vs) := by
  induction vs generalizing best with
  | nil => exact yields_ok List.mem_cons_self
  | cons v vs ih =>
    unfold Builtin.bestOf
    split
    · exact yields_error _
    · split
      · exact yields_error _
      · intro w hw
        exact List.mem_cons_of_mem best (ih v w hw)
      · intro w hw
        rcases List.mem_cons.1 (ih best w hw) with rfl | hmem
        · exact List.mem_cons_self
        · exact List.mem_cons_of_mem best (List.mem_cons_of_mem v hmem)

theorem number_of_isInteger {v : Value} (h : Builtin.isInteger v = true) : Number v := by
  cases v with
  | integer n => exact .integer n
  | _ => cases h

theorem extremum_number (name : String) (pick : BinaryOperator) (args : List Value) :
    Yields Number (Builtin.extremum name pick args) := by
  unfold Builtin.extremum
  split
  · exact yields_error _
  · next v vs =>
    split
    · exact yields_error _
    · split
      · exact yields_error _
      · next best hbest =>
        split
        · next hall => exact yields_ok (number_of_isInteger (List.all_eq_true.1 hall best (bestOf_mem _ _ _ _ _ hbest)))
        · split
          · exact yields_error _
          · exact float_number _ _

/-- **Built-in functions** apart from plotting give numbers. -/
theorem builtin_number {b : Builtin} (hb : b ≠ .plot) (args : List Value) : Yields Number (b.call args) := by
  cases b with
  | sqrt | ln | log10 | asin | acos => exact ofNumberWhere_number _ _ _ _ _
  | exp | sin | cos | tan | atan => exact ofNumber_number _ _ _
  | abs => exact absolute_number _
  | pow => exact builtinPower_number _
  | floor | ceil | round => exact rounding_number _ _ _
  | min | max => exact extremum_number _ _ _
  | plot => exact absurd rfl hb

/-! ## Plotting -/

/-- a range that is admitted, or none -/
def Admitted (range : Option SampleRange) : Prop :=
  ∀ r, range = some r → ∃ low high step, SampleRange.make? low high step = some r

theorem make?_admitted (low high step : Float) : Admitted (SampleRange.make? low high step) :=
  fun _ hr => ⟨low, high, step, hr⟩

theorem split?_admitted (low high : Float) (n : Nat) : Admitted (SampleRange.split? low high n) := by
  unfold SampleRange.split?
  split
  · exact nofun
  · exact make?_admitted _ _ _

theorem plotRange_admitted (args : List Value) : Yields Admitted (Builtin.plotRange args) := by
  unfold Builtin.plotRange
  split
  · exact yields_ok nofun
  · split
    · exact yields_error _
    · exact yields_error _
    · split
      · next hr => exact yields_ok (hr ▸ split?_admitted _ _ _)
      · exact yields_error _
  · split
    · exact yields_error _
    · exact yields_error _
    · exact yields_error _
    · split
      · next hr => exact yields_ok (hr ▸ make?_admitted _ _ _)
      · exact yields_error _
  · exact yields_error _

/-- **Plotting** gives a graph of what its first argument is or plots: a function that takes one argument, with an
admitted range or none. -/
theorem plot_gives {args : List Value} {w : Value} (h : Builtin.plot.call args = .ok w) :
    ∃ v rest f range, args = v :: rest ∧ v.function? = some f ∧ f.arity.accepts 1 = true ∧ Admitted range ∧
      w = .graph ⟨f, range⟩ := by
  change Builtin.plotFunction args = .ok w at h
  unfold Builtin.plotFunction at h
  split at h
  · cases h
  · next v rest =>
    split at h
    · cases h
    · next f hf =>
      split at h
      · next hone =>
        split at h
        · cases h
        · next range hrange =>
          cases h
          exact ⟨v, rest, f, range, rfl, hf, hone, plotRange_admitted _ range hrange, rfl⟩
      · cases h

/-! ## Native functions -/

theorem result_number (f : Plugin.ExportedFunction) (count : Nat) (r : Plugin.Reply) :
    Yields Number (f.result count r) := by
  unfold Plugin.ExportedFunction.result
  split
  · dsimp only
    split
    · next h => exact yields_ok (.float h)
    · exact yields_error _
  · repeat' split
    all_goals exact yields_error _

/-- **Plugin functions** give numbers. -/
theorem plugin_number (f : Plugin.ExportedFunction) (args : List Value) : Yields Number (f.call args) := by
  unfold Plugin.ExportedFunction.call Plugin.ExportedFunction.callBy
  split
  · exact yields_error _
  · next xs _ => exact result_number f args.length (f.entry xs)

/-- A value that a function of the host has of its own: one that it keeps, or a float that it makes. -/
inductive Own : NativeCall → Value → Prop where
  | kept {kept : List Value} {rule : List Seen → Except EvalError Choice} {w : Value} (h : w ∈ kept) :
      Own (.host kept rule) w
  | made {kept : List Value} {rule : List Seen → Except EvalError Choice} {seen : List Seen} {x : Float}
      (h : rule seen = .ok (.float x)) : Own (.host kept rule) (.float x)

/-- what a native function can give for arguments -/
inductive Given : NativeCall → List Value → Value → Prop where
  | number {call : NativeCall} {args : List Value} {w : Value} (h : Number w) : Given call args w
  | unit {call : NativeCall} {args : List Value} : Given call args .unit
  | argument {call : NativeCall} {args : List Value} {w : Value} (h : w ∈ args) : Given call args w
  | graph {call : NativeCall} {args : List Value} {v : Value} {f : FunctionValue} {range : Option SampleRange}
      (hv : v ∈ args) (hf : v.function? = some f) (hone : f.arity.accepts 1 = true) (hrange : Admitted range) :
      Given call args (.graph ⟨f, range⟩)
  | own {call : NativeCall} {args : List Value} {w : Value} (h : Own call w) : Given call args w

/-- A value at a position, or unit. -/
theorem getD_unit (vs : List Value) (i : Nat) : vs.getD i .unit ∈ vs ∨ vs.getD i .unit = .unit := by
  rw [List.getD_eq_getElem?_getD]
  cases hv : vs[i]? with
  | none => exact Or.inr rfl
  | some v => exact Or.inl (List.mem_of_getElem? hv)

/-- **Functions of the host.** -/
theorem host_given {kept args : List Value} {rule : List Seen → Except EvalError Choice} {w : Value}
    (h : (NativeCall.host kept rule).call args = .ok w) : Given (.host kept rule) args w := by
  obtain ⟨c, hc, rfl⟩ := Readers.map_eq_ok (show (rule (args.map Value.seen)).map (Choice.value kept args) = .ok w from h)
  cases c with
  | integer n => exact .number (.integer n)
  | float x => exact .own (.made hc)
  | unit => exact .unit
  | argument i =>
    rcases getD_unit args i with hmem | hunit
    · exact .argument hmem
    · rw [Choice.value, hunit]
      exact .unit
  | kept i =>
    rcases getD_unit kept i with hmem | hunit
    · exact .own (.kept hmem)
    · rw [Choice.value, hunit]
      exact .unit

/-- **Native functions.** -/
theorem native_given {call : NativeCall} {args : List Value} {w : Value} (h : call.call args = .ok w) :
    Given call args w := by
  cases call with
  | builtin b =>
    by_cases hb : b = .plot
    · subst hb
      obtain ⟨v, rest, f, range, rfl, hf, hone, hrange, rfl⟩ := plot_gives h
      exact .graph List.mem_cons_self hf hone hrange
    · exact .number (builtin_number hb args w h)
  | plugin f => exact .number (plugin_number f args w h)
  | host kept rule => exact host_given h

end CurveScript.Numbers
