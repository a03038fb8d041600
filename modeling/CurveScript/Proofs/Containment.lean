/-
Calls of plugin functions.

A call crosses four layers: the check of the count, the turning of arguments into doubles, the entry point with its
statuses, and the reading of the answer. `Handled` lists all that can come of it, for any scalar function and any
arguments, and on which argument lists the function ran. The runs are those that a noting runner notes, and this runner
changes nothing else (`enterBy_noting`, `callBy_noting`, `callWithBy_noting`).

The count is checked twice, before the arguments are looked at and again at the entry point. The second check only
decides where the first is left out, and then a wrong argument is reported before the count.

Results:
- `read_ofFunctions`: a declaration of scalar functions, read back.
- `callBy_handled`: a call without the first check.
- `callWithBy_handled`: a call of the registered function.
- `enterBy_arity`, `enter_written`, `result_written`: the entry point, for any request, and the slot for the result.
- `plugin_calls_contained`: the theorem.
Witness: `gaussian_contained`, of the demonstration library.
-/
import CurveScript.Plugin.Demo
import CurveScript.Proofs.Declarations
import CurveScript.Proofs.Invariants
import CurveScript.Proofs.Numbers

namespace CurveScript.Containment

open CurveScript.Plugin CurveScript.Invariants CurveScript.Numbers

variable {F : ScalarFunction} {args : List Value}

/-! ## Declarations read back -/

/-- a text that a name in a declaration can hold: no byte of it is zero -/
def Nameable (s : String) : Prop := (0 : UInt8) ∉ s.toUTF8.toList

instance (s : String) : Decidable (Nameable s) := inferInstanceAs (Decidable (_ ∉ _))

/-- the scalar function as the host keeps it -/
def exported (plugin : String) (F : ScalarFunction) : ExportedFunction := ⟨F.name, plugin, F.arity, F.entry⟩

theorem toList_loop (b : ByteArray) (i : Nat) (acc : List UInt8) :
    ByteArray.toList.loop b i acc = acc.reverse ++ b.data.toList.drop i := by
  induction hn : b.size - i generalizing i acc with
  | zero =>
    have hle : b.data.toList.length ≤ i := by simp; omega
    rw [ByteArray.toList.loop, if_neg (by omega), List.drop_eq_nil_of_le hle, List.append_nil]
  | succ n ih =>
    have hlt : i < b.data.toList.length := by simp; omega
    rw [ByteArray.toList.loop, if_pos (by omega), ih (i + 1) _ (by omega), List.drop_eq_getElem_cons hlt,
      List.reverse_cons, List.append_assoc]
    have hbyte : b.get! i = b.data.toList[i] := getElem!_pos b.data i (by simpa using hlt)
    rw [hbyte]
    rfl

theorem toList_eq (b : ByteArray) : b.toList = b.data.toList := toList_loop b 0 []

/-- A name without a zero byte is read back, if it is an identifier. -/
theorem readName_eq {s : String} (h : Nameable s) :
    readName (some s.toUTF8.toList) =
      if isIdentifier s then .ok s else .error (.invalidDeclaration ("'" ++ s ++ "' is not a valid name")) := by
  rw [Nameable, toList_eq] at h
  rw [toList_eq]
  exact Declarations.readName_spells ⟨_, rfl, h, .inl rfl⟩

theorem readFunctions_eq {plugin : String} {fs : List ScalarFunction} (h : ∀ F ∈ fs, Nameable F.name)
    {gs : List ExportedFunction}
    (hread : readFunctions plugin (fs.map fun f => ⟨some f.name.toUTF8.toList, f.arity, f.entry⟩) = .ok gs) :
    gs = fs.map (exported plugin) := by
  induction fs generalizing gs with
  | nil =>
    cases hread
    rfl
  | cons F fs ih =>
    obtain ⟨hF, hfs⟩ := List.forall_mem_cons.1 h
    rw [List.map_cons, readFunctions, readName_eq hF] at hread
    split at hread
    · cases hread
    · next hname =>
      split at hname
      · cases hname
        obtain ⟨rest, hrest, rfl⟩ := Readers.map_eq_ok hread
        rw [ih hfs hrest]
        rfl
      · cases hname

/-- **A declaration of scalar functions** is read back as these functions, if it is accepted. -/
theorem read_ofFunctions {plugin m : String} {fs : List ScalarFunction} {gs : List ExportedFunction}
    (hplugin : Nameable plugin) (hfs : ∀ F ∈ fs, Nameable F.name)
    (hread : Declaration.read (some (.ofFunctions plugin fs)) = .ok (m, gs)) :
    m = plugin ∧ gs = fs.map (exported plugin) := by
  simp only [Declaration.read, Declaration.ofFunctions, ne_eq, not_true_eq_false, if_false,
    readName_eq hplugin] at hread
  split at hread
  · cases hread
  · next hname =>
    split at hname
    · cases hname
      obtain ⟨hs, hhs, heq⟩ := Readers.map_eq_ok hread
      cases heq
      rw [List.take_of_length_le (List.length_map _).le] at hhs
      exact ⟨rfl, readFunctions_eq hfs hhs⟩
    · cases hname

/-! ## Noting the runs -/

/-- Runs a function and notes what it ran on. -/
def noting : Runner (List (List Float)) := fun F xs log => (F.run xs, log ++ [xs])

/-- Enters the scalar function `F` and notes its runs. -/
def entering (F : ScalarFunction) : Entrance (List (List Float)) :=
  fun _ xs log => F.enterBy noting ⟨some xs, xs.length, true⟩ log

theorem enterBy_noting (F : ScalarFunction) (r : Request) (log : List (List Float)) :
    (F.enterBy noting r log).1 = F.enter r := by
  unfold ScalarFunction.enter ScalarFunction.enterBy
  split
  · rfl
  · split <;> rfl

theorem callBy_noting (plugin : String) (F : ScalarFunction) (args : List Value) (log : List (List Float)) :
    ((exported plugin F).callBy (entering F) args log).1 = (exported plugin F).call args := by
  unfold ExportedFunction.call ExportedFunction.callBy
  cases (exported plugin F).scalars 1 args with
  | error e => rfl
  | ok xs =>
    exact congrArg ((exported plugin F).result args.length) (enterBy_noting F ⟨some xs, xs.length, true⟩ log)

/-! ## The entry point -/

/-- The outcome of a run is answered with the status `ok` exactly if there is a number, which is written then. -/
theorem reply_written (o : Outcome) : o.reply.written.isSome = true ↔ o.reply.status = Status.ok := by
  cases o with
  | value x => exact ⟨fun _ => rfl, fun _ => rfl⟩
  | fault f => cases f <;> decide
  | crashed => decide

/-- **The slot is written with the status `ok` only**, and always then. -/
theorem enter_written (F : ScalarFunction) (r : Request) :
    (F.enter r).written.isSome = true ↔ (F.enter r).status = Status.ok := by
  unfold ScalarFunction.enter ScalarFunction.enterBy
  split
  · decide
  · split
    · decide
    · exact reply_written _

/-- **The slot is read with the status `ok` only.** -/
theorem result_written (g : ExportedFunction) (count : Nat) {status : Int} (h : status ≠ Status.ok)
    (written written' : Option Float) : g.result count ⟨status, written⟩ = g.result count ⟨status, written'⟩ := by
  simp only [ExportedFunction.result, if_neg h]

/-- **The function never runs on another number of arguments**, whatever request reaches the entry point, as long as a
block has as many numbers as the request says. -/
theorem enterBy_arity (F : ScalarFunction) {r : Request} (hblock : ∀ xs, r.block = some xs → xs.length = r.count) :
    ∀ xs ∈ (F.enterBy noting r []).2, xs.length = F.arity := by
  unfold ScalarFunction.enterBy
  split
  · simp
  · next hgood =>
    split
    · simp
    · next hcount =>
      have hcount : r.count = F.arity := not_ne_iff.1 hcount
      intro xs hxs
      rw [List.mem_singleton.1 hxs]
      cases hr : r.block with
      | some ys => exact (hblock ys hr).trans hcount
      | none =>
        -- without a block the count is zero
        simp only [hr, Option.isNone_none, Bool.true_and, Bool.or_eq_true, decide_eq_true_eq, not_or] at hgood
        simp only [Option.getD_none, List.length_nil]
        omega

/-! ## Arguments -/

/-- the failure of an argument that is not a number, at a position counted from 1 -/
def misplaced (name : String) (position : Nat) (v : Value) : EvalError :=
  .plugin name ("argument " ++ toString position ++ " is " ++ v.kind.text ++ ", expected a number")

theorem scalars_numbers (g : ExportedFunction) (position : Nat) {xs : List Float}
    (h : args.map Value.number? = xs.map some) : g.scalars position args = .ok xs := by
  induction args generalizing position xs with
  | nil =>
    rw [List.map_nil] at h
    rw [List.map_eq_nil_iff.1 h.symm]
    rfl
  | cons v vs ih =>
    cases xs with
    | nil => cases h
    | cons x xs =>
      rw [List.map_cons, List.map_cons, List.cons.injEq] at h
      rw [ExportedFunction.scalars, h.1, ih (position + 1) h.2]
      rfl

/-- **The first argument that is not a number** is reported, at its place. -/
theorem scalars_other (g : ExportedFunction) {before after : List Value} {v : Value}
    (hbefore : ∀ u ∈ before, u.isNumeric = true) (hv : v.isNumeric = false) (position : Nat) :
    g.scalars position (before ++ v :: after) = .error (misplaced g.name (position + before.length) v) := by
  induction before generalizing position with
  | nil =>
    rw [List.nil_append, ExportedFunction.scalars, number?_none hv]
    rfl
  | cons u us ih =>
    obtain ⟨hu, hus⟩ := List.forall_mem_cons.1 hbefore
    obtain ⟨x, hx⟩ := number?_some hu
    rw [List.cons_append, ExportedFunction.scalars, hx]
    simp only
    rw [ih hus, List.length_cons, Nat.add_right_comm, Nat.add_assoc]
    rfl

theorem length_of_numbers {xs : List Float} (h : args.map Value.number? = xs.map some) : xs.length = args.length := by
  simpa using (congrArg List.length h).symm

theorem isNumeric_of_numbers {xs : List Float} (h : args.map Value.number? = xs.map some) :
    ∀ v ∈ args, v.isNumeric = true := by
  intro v hv
  have hmem : v.number? ∈ xs.map some := h ▸ List.mem_map_of_mem hv
  obtain ⟨x, -, hx⟩ := List.mem_map.1 hmem
  rw [← number?_isSome, ← hx]
  rfl

/-- All arguments are numbers, or one is the first that is not. -/
theorem arguments_cases (args : List Value) :
    (∃ xs : List Float, args.map Value.number? = xs.map some) ∨
      ∃ before v after, args = before ++ v :: after ∧ (∀ u ∈ before, u.isNumeric = true) ∧ v.isNumeric = false := by
  induction args with
  | nil => exact Or.inl ⟨[], rfl⟩
  | cons v vs ih =>
    cases hv : v.isNumeric with
    | false => exact Or.inr ⟨[], v, vs, rfl, by simp, hv⟩
    | true =>
      obtain ⟨x, hx⟩ := number?_some hv
      rcases ih with ⟨xs, hxs⟩ | ⟨before, w, after, rfl, hbefore, hw⟩
      · exact Or.inl ⟨x :: xs, by rw [List.map_cons, hx, hxs]; rfl⟩
      · exact Or.inr ⟨v :: before, w, after, rfl, List.forall_mem_cons.2 ⟨hv, hbefore⟩, hw⟩

/-! ## Calls -/

/-- what a caller sees of a run of the function -/
def shown (name : String) : Outcome → Except EvalError Value
  | .value x => if x.isFinite then .ok (.float x) else .error (.plugin name "returned a non-finite result")
  | .fault .domain => .error (.domain name "argument outside the function's domain")
  | .fault .invalidArguments => .error (.plugin name "rejected its arguments")
  | .crashed => .error (.plugin name "panicked")

/-- All that can come of a call: the result, and the argument lists that the function ran on. What is `checked` is
whether the count is right before the arguments are looked at; if not, it is noticed after them. -/
inductive Handled (checked : Bool) (F : ScalarFunction) (args : List Value) :
    Except EvalError Value → List (List Float) → Prop where
  | count (h : args.length ≠ F.arity) (hargs : checked = true ∨ ∀ v ∈ args, v.isNumeric = true) :
      Handled checked F args (.error (.wrongArgumentCount F.name (.exact F.arity) args.length)) []
  | argument {before after : List Value} {v : Value} (hcount : checked = true → args.length = F.arity)
      (hargs : args = before ++ v :: after) (hbefore : ∀ u ∈ before, u.isNumeric = true) (hv : v.isNumeric = false) :
      Handled checked F args (.error (misplaced F.name (before.length + 1) v)) []
  | ran {xs : List Float} (hcount : xs.length = F.arity) (hargs : args.map Value.number? = xs.map some) :
      Handled checked F args (shown F.name (F.run xs)) [xs]

/-- With the right count, the check makes no difference. -/
theorem Handled.checked {result : Except EvalError Value} {runs : List (List Float)}
    (h : Handled false F args result runs) (hcount : args.length = F.arity) : Handled true F args result runs := by
  cases h with
  | count hne _ => exact absurd hcount hne
  | argument _ hargs hbefore hv => exact .argument (fun _ => hcount) hargs hbefore hv
  | ran hlength hargs => exact .ran hlength hargs

/-- Every status that a run is answered with is known, and is read as what it stands for. -/
theorem result_reply (plugin : String) (F : ScalarFunction) (count : Nat) (o : Outcome) :
    (exported plugin F).result count o.reply = shown F.name o := by
  cases o with
  | value x => rfl
  | fault f => cases f <;> rfl
  | crashed => rfl

/-- **A call with numbers**, without the check of the count before it: the entry point makes up for it. -/
theorem callBy_numbers (plugin : String) {xs : List Float} (h : args.map Value.number? = xs.map some) :
    (exported plugin F).callBy (entering F) args [] =
      if args.length = F.arity then (shown F.name (F.run xs), [xs])
      else (.error (.wrongArgumentCount F.name (.exact F.arity) args.length), []) := by
  simp only [ExportedFunction.callBy, scalars_numbers _ 1 h, entering, ScalarFunction.enterBy, length_of_numbers h,
    Option.isNone_some, Bool.false_and, Bool.not_true, Bool.or_self, Bool.false_eq_true, if_false]
  by_cases hcount : args.length = F.arity
  · rw [if_neg (not_not.2 hcount), if_pos hcount]
    exact congrArg (·, [xs]) (result_reply plugin F args.length (F.run xs))
  · rw [if_pos hcount, if_neg hcount]
    rfl

/-- **A call without the check of the count before it.** -/
theorem callBy_handled (plugin : String) (F : ScalarFunction) (args : List Value) :
    ∃ result runs, (exported plugin F).callBy (entering F) args [] = (result, runs) ∧
      Handled false F args result runs := by
  rcases arguments_cases args with ⟨xs, hxs⟩ | ⟨before, v, after, rfl, hbefore, hv⟩
  · have hcall := callBy_numbers (F := F) plugin hxs
    by_cases hcount : args.length = F.arity
    · rw [if_pos hcount] at hcall
      exact ⟨_, _, hcall, .ran ((length_of_numbers hxs).trans hcount) hxs⟩
    · rw [if_neg hcount] at hcall
      exact ⟨_, _, hcall, .count hcount (Or.inr (isNumeric_of_numbers hxs))⟩
  · refine ⟨_, _, ?_, .argument nofun rfl hbefore hv⟩
    simp only [ExportedFunction.callBy, scalars_other _ hbefore hv, Nat.add_comm 1]
    rfl

/-! ## Registered functions -/

/-- the value of a function that calls the scalar function, under its name -/
def Registers (plugin : String) (F : ScalarFunction) (f : FunctionValue) : Prop :=
  f.name = some F.name ∧ f.body = .native (.exact F.arity) (.plugin (exported plugin F))

/-- What is registered under a name is found there. -/
theorem function?_register {r r' : Registry} {plugin : String} {source : Source} {id : Nat}
    (h : r.register F.name (exported plugin F).info (.plugin (exported plugin F)) source id = .ok r') :
    ∃ f, r'.function? F.name = some f ∧ Registers plugin F f := by
  obtain ⟨-, -, hget⟩ := register_eq_ok h
  refine ⟨(Registry.entry F.name (exported plugin F).info (.plugin (exported plugin F)) source id).value, ?_, rfl, rfl⟩
  rw [Registry.function?, hget, if_pos rfl]
  rfl

theorem callWithBy_noting {plugin : String} {f : FunctionValue} (hf : Registers plugin F f) (invoke : Invoke)
    (args : List Value) (n : Nat) (log : List (List Float)) :
    (f.callWithBy (entering F) invoke args n log).1 = f.callWith invoke args n := by
  obtain ⟨-, hbody⟩ := hf
  unfold FunctionValue.callWith FunctionValue.callWithBy
  split
  · rw [hbody]
    exact congrArg (Eval.lift · n) (callBy_noting plugin F args log)
  · rfl

/-- **A call of the registered function.** -/
theorem callWithBy_handled {plugin : String} {f : FunctionValue} (hf : Registers plugin F f) (invoke : Invoke)
    (args : List Value) (n : Nat) :
    ∃ result runs, f.callWithBy (entering F) invoke args n [] = (result.map fun v => (v, n), runs) ∧
      Handled true F args result runs := by
  obtain ⟨hname, hbody⟩ := hf
  have harity : f.arity = .exact F.arity := by rw [FunctionValue.arity, hbody]
  by_cases hcount : args.length = F.arity
  · obtain ⟨result, runs, hcall, hhandled⟩ := callBy_handled plugin F args
    refine ⟨result, runs, ?_, hhandled.checked hcount⟩
    rw [FunctionValue.callWithBy, harity, if_pos (by simp [Arity.accepts, hcount]), hbody]
    simp only [NativeCall.callBy, hcall]
    cases result <;> rfl
  · refine ⟨_, _, ?_, .count hcount (Or.inl rfl)⟩
    rw [FunctionValue.callWithBy, harity, if_neg (by simp [Arity.accepts, hcount]), FunctionValue.displayName, hname]
    rfl

/-! ## The theorem -/

/-- **Plugin functions are contained**, whatever scalar function is behind them: it may give any double, fail with any
fault, or crash. From a declaration of scalar functions, each is read back under its name, and where it is registered
it is found under its name. A call of what is found gives one of the outcomes of `Handled`, with the count checked
first, and so does a call of the exported function, with the count checked last; the runs are those that the runner
notes. No request to the entry point has the function run on another number of arguments; the slot for the result is
written exactly with the status `ok`, and with any other status its content does not matter. -/
theorem plugin_calls_contained {plugin m : String} {fs : List ScalarFunction} {gs : List ExportedFunction}
    (hplugin : Nameable plugin) (hfs : ∀ F ∈ fs, Nameable F.name)
    (hread : Declaration.read (some (.ofFunctions plugin fs)) = .ok (m, gs)) {F : ScalarFunction} (hF : F ∈ fs) :
    m = plugin ∧ exported plugin F ∈ gs ∧
    (∀ (r r' : Registry) (source : Source) (id : Nat),
      r.register F.name (exported plugin F).info (.plugin (exported plugin F)) source id = .ok r' →
      ∃ f, r'.function? F.name = some f ∧ ∀ (invoke : Invoke) (args : List Value) (n : Nat), ∃ result runs,
        f.callWith invoke args n = (result.map fun v => (v, n)) ∧
        f.callWithBy (entering F) invoke args n [] = (f.callWith invoke args n, runs) ∧ Handled true F args result runs) ∧
    (∀ args : List Value, ∃ runs,
      (exported plugin F).callBy (entering F) args [] = ((exported plugin F).call args, runs) ∧
      Handled false F args ((exported plugin F).call args) runs) ∧
    (∀ request : Request, (∀ xs, request.block = some xs → xs.length = request.count) → ∃ runs,
      F.enterBy noting request [] = (F.enter request, runs) ∧ ∀ xs ∈ runs, xs.length = F.arity) ∧
    (∀ request : Request, (F.enter request).written.isSome = true ↔ (F.enter request).status = Status.ok) ∧
    ∀ (count : Nat) (status : Int) (written written' : Option Float), status ≠ Status.ok →
      (exported plugin F).result count ⟨status, written⟩ = (exported plugin F).result count ⟨status, written'⟩ := by
  obtain ⟨rfl, rfl⟩ := read_ofFunctions hplugin hfs hread
  refine ⟨rfl, List.mem_map_of_mem hF, ?_, ?_, ?_, enter_written F,
    fun count _ written written' h => result_written _ count h written written'⟩
  · intro r r' source id hregister
    obtain ⟨f, hfound, hf⟩ := function?_register hregister
    refine ⟨f, hfound, fun invoke args n => ?_⟩
    obtain ⟨result, runs, hcall, hhandled⟩ := callWithBy_handled hf invoke args n
    have hsame := callWithBy_noting hf invoke args n []
    rw [hcall] at hsame
    exact ⟨result, runs, hsame.symm, hsame ▸ hcall, hhandled⟩
  · intro args
    obtain ⟨result, runs, hcall, hhandled⟩ := callBy_handled m F args
    have hsame := callBy_noting m F args []
    rw [hcall] at hsame
    exact ⟨runs, hsame ▸ hcall, hsame ▸ hhandled⟩
  · intro request hblock
    exact ⟨_, Prod.ext (enterBy_noting F request []) rfl, enterBy_arity F hblock⟩

/-! ## Witness: the demonstration library -/

/-- a registry with the function `gaussian` of the demonstration library -/
def gaussianRegistry : Registry :=
  { Registry.empty with functions := Bindings.empty.set "gaussian" (Registry.entry "gaussian"
      (exported "demo" Demo.gaussian).info (.plugin (exported "demo" Demo.gaussian)) (.plugin "demo") 0) }

/-- `gaussian` takes three arguments. With two, one of which is a unit, the registered function reports the count, and
the exported one reports the unit. -/
theorem gaussian_contained :
    ∃ f, gaussianRegistry.function? "gaussian" = some f ∧
      (∃ runs, f.callWith (callClosure maxCalls) [.integer 1, .unit] 0 =
          .error (.wrongArgumentCount "gaussian" (.exact 3) 2) ∧
        Handled true Demo.gaussian [.integer 1, .unit] (.error (.wrongArgumentCount "gaussian" (.exact 3) 2)) runs) ∧
      ∃ runs, (exported "demo" Demo.gaussian).call [.integer 1, .unit] =
          .error (.plugin "gaussian" "argument 2 is Unit, expected a number") ∧
        Handled false Demo.gaussian [.integer 1, .unit]
          (.error (.plugin "gaussian" "argument 2 is Unit, expected a number")) runs := by
  have hread : Declaration.read (some Demo.declaration) = .ok ("demo", Demo.functions.map (exported "demo")) := by
    with_unfolding_all rfl
  have hmem : Demo.gaussian ∈ Demo.functions := List.mem_cons_of_mem _ List.mem_cons_self
  have hregister : Registry.empty.register "gaussian" (exported "demo" Demo.gaussian).info
      (.plugin (exported "demo" Demo.gaussian)) (.plugin "demo") 0 = .ok gaussianRegistry := rfl
  obtain ⟨-, -, hcalls, hraw, -⟩ :=
    plugin_calls_contained (by decide +kernel) (by decide +kernel) hread hmem
  obtain ⟨f, hf, hcall⟩ := hcalls _ _ _ _ hregister
  obtain ⟨result, runs, hresult, -, hhandled⟩ := hcall (callClosure maxCalls) [.integer 1, .unit] 0
  obtain ⟨runs', -, hhandled'⟩ := hraw [.integer 1, .unit]
  cases hf
  refine ⟨_, rfl, ⟨runs, rfl, ?_⟩, runs', rfl, hhandled'⟩
  cases result with
  | error e => cases hresult; exact hhandled
  | ok v => cases hresult

end CurveScript.Containment
