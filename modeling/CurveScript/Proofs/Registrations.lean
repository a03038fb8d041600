/-
What a registry keeps.

A host makes a registry by additions in any order: built-ins under the names in their descriptions, functions under names
of its choice, and constants. The first registration of a name is granted and stands for ever, a later one is refused
with the source of the first. Functions and constants are two tables that never meet (`foldl_add`), so each is a fold of
its own over the additions that are meant for it.

A host holds its registries by handles and copies them at any point. A copy starts out with all that the original keeps,
identities included, and from then on each goes its own way (`getElem?_actAll`).

Results:
- `get?_settleAll`, `get?_placeAll`: the two tables after any additions.
- `keeps_make`: all that a registry can be asked. `get?_make_append`: what stands stays.
- `getElem?_act`, `getElem?_actAll`: one act of a host, and any number of them.
- `first_registrations_stay`: the theorem.
Witness: `late_refused`.
-/
import CurveScript.Registry
import Mathlib.Data.List.Dedup

namespace CurveScript.Registrations

/-! ## Additions -/

/-- a native function that is put forward under a name, with the identity that it gets if the name is free -/
structure Registration where
  name : String
  info : FunctionInfo
  call : NativeCall
  source : Source
  id : Nat

/-- something that a host adds to a registry -/
inductive Addition where
  /-- A built-in function, under the name in its description. -/
  | builtin (info : FunctionInfo) (call : NativeCall) (id : Nat)
  | constant (c : Constant)
  /-- A function of anyone, under a name that need not be the one in its description. -/
  | function (g : Registration)

/-- the answer to a registration -/
def attempt (r : Registry) (g : Registration) : Except RegistryError Registry :=
  r.register g.name g.info g.call g.source g.id

/-- the registry after an addition -/
def add (r : Registry) : Addition → Registry
  | .builtin info call id => r.withFunction info call id
  | .constant c => r.withConstant c
  | .function g =>
    match attempt r g with
    | .ok r' => r'
    | .error _ => r

/-- the registry that additions in turn make of the empty one -/
def make (as : List Addition) : Registry := as.foldl add .empty

theorem make_concat (as : List Addition) (a : Addition) : make (as ++ [a]) = add (make as) a :=
  List.foldl_append

/-! ## What the additions say -/

/-- the registration that an addition asks for -/
def Addition.registration? : Addition → Option Registration
  | builtin info call id => some ⟨info.name, info, call, .builtin, id⟩
  | constant _ => none
  | function g => some g

/-- the constant that an addition brings -/
def Addition.constant? : Addition → Option Constant
  | constant c => some c
  | builtin _ _ _ | function _ => none

theorem isNone_constant? (a : Addition) : a.constant?.isNone = a.registration?.isSome := by cases a <;> rfl

theorem isNone_registration? (a : Addition) : a.registration?.isNone = a.constant?.isSome := by cases a <;> rfl

/-- the registrations among additions -/
def registrations (as : List Addition) : List Registration := as.filterMap Addition.registration?

/-- the constants among additions -/
def constants (as : List Addition) : List Constant := as.filterMap Addition.constant?

/-- the names that registrations ask for, as often as they do -/
def names (as : List Addition) : List String := (registrations as).map Registration.name

/-- the first registration of a name -/
def first? (as : List Addition) (name : String) : Option Registration := (registrations as).find? fun g => g.name = name

/-- the latest constant of a name -/
def latest? (as : List Addition) (name : String) : Option Constant := (constants as).reverse.find? fun c => c.name = name

/-- the function of a registration as a value -/
def Registration.value (g : Registration) : FunctionValue := ⟨some g.name, g.id, .native g.info.arity g.call, none⟩

/-- what a registration that is granted leaves under its name -/
def Registration.entry (g : Registration) : Registered := ⟨g.info, g.call, g.value, g.source⟩

theorem first?_append (as more : List Addition) (name : String) :
    first? (as ++ more) name = (first? as name).or (first? more name) := by
  simp [first?, registrations]

theorem mem_names {as : List Addition} {name : String} : name ∈ names as ↔ (first? as name).isSome := by
  simp [names, first?]

/-! ## The two tables -/

/-- the functions after a registration -/
def settle (b : Bindings Registered) (g : Registration) : Bindings Registered :=
  match b.get? g.name with
  | some _ => b
  | none => b.set g.name g.entry

/-- the constants after one more -/
def place (b : Bindings Constant) (c : Constant) : Bindings Constant := b.set c.name c

theorem settle_taken {b : Bindings Registered} {g : Registration} {e : Registered} (h : b.get? g.name = some e) :
    settle b g = b := by
  simp only [settle, h]

theorem settle_free {b : Bindings Registered} {g : Registration} (h : b.get? g.name = none) :
    settle b g = b.set g.name g.entry := by
  simp only [settle, h]

theorem attempt_eq (r : Registry) (g : Registration) :
    attempt r g =
      match r.get? g.name with
      | some e => .error (.conflict g.name e.source)
      | none => .ok { r with functions := settle r.functions g } := by
  unfold attempt Registry.register
  cases hget : r.get? g.name with
  | some e => rfl
  | none =>
    have hset : settle r.functions g = r.functions.set g.name g.entry := settle_free hget
    rw [hset]
    rfl

/-- A registry is its two tables. -/
theorem eta (r : Registry) : ⟨r.functions, r.constants⟩ = r := by
  cases r
  rfl

/-- A registration changes the functions only. -/
theorem add_registration {a : Addition} {g : Registration} (h : a.registration? = some g) (r : Registry) :
    add r a = { r with functions := settle r.functions g } := by
  have hattempt : add r (.function g) = { r with functions := settle r.functions g } := by
    rw [add, attempt_eq]
    cases hget : r.get? g.name with
    | some e =>
      rw [settle_taken hget]
      exact (eta r).symm
    | none => rfl
  cases a with
  | builtin info call id =>
    cases h
    exact hattempt
  | constant c => cases h
  | function g' =>
    cases h
    exact hattempt

theorem add_constant {a : Addition} {c : Constant} (h : a.constant? = some c) (r : Registry) :
    add r a = { r with constants := place r.constants c } := by
  cases a with
  | builtin | function => cases h
  | constant c' =>
    cases h
    rfl

theorem foldl_add (as : List Addition) (r : Registry) :
    as.foldl add r = ⟨(registrations as).foldl settle r.functions, (constants as).foldl place r.constants⟩ := by
  induction as generalizing r with
  | nil => exact (eta r).symm
  | cons a as ih =>
    rw [List.foldl_cons, ih]
    unfold registrations constants
    cases a with
    | builtin | function =>
      rw [add_registration rfl]
      rfl
    | constant =>
      rw [add_constant rfl]
      rfl

theorem make_eq (as : List Addition) :
    make as = ⟨(registrations as).foldl settle .empty, (constants as).foldl place .empty⟩ := foldl_add as .empty

section Tables

variable (name : String)

/-- A registration is seen under its own name if that was free, and changes no other name. -/
theorem get?_settle (b : Bindings Registered) (g : Registration) :
    (settle b g).get? name = (b.get? name).or (if g.name = name then some g.entry else none) := by
  cases hget : b.get? g.name with
  | some e =>
    rw [settle_taken hget]
    by_cases hname : g.name = name
    · rw [← hname, hget]
      rfl
    · simp [hname]
  | none =>
    rw [settle_free hget, Bindings.get?_set]
    by_cases hname : g.name = name
    · rw [if_pos hname.symm, if_pos hname, ← hname, hget]
      rfl
    · simp [hname, Ne.symm hname]

/-- **Functions.** The first registration of a free name stands, whatever comes after it. -/
theorem get?_settleAll (gs : List Registration) (b : Bindings Registered) :
    (gs.foldl settle b).get? name = (b.get? name).or ((gs.find? fun g => g.name = name).map Registration.entry) := by
  induction gs generalizing b with
  | nil => simp
  | cons g gs ih =>
    rw [List.foldl_cons, ih, get?_settle, List.find?_cons, Option.or_assoc]
    by_cases hname : g.name = name <;> simp [hname]

/-- **Constants.** The last one of a name stands. -/
theorem get?_placeAll (cs : List Constant) (b : Bindings Constant) :
    (cs.foldl place b).get? name = (cs.reverse.find? fun c => c.name = name).or (b.get? name) := by
  induction cs generalizing b with
  | nil => simp
  | cons c cs ih =>
    rw [List.foldl_cons, ih, place, Bindings.get?_set, List.reverse_cons, List.find?_append, Option.or_assoc]
    by_cases hname : c.name = name
    · simp [hname]
    · simp [hname, Ne.symm hname]

theorem sorted_settleAll (gs : List Registration) {b : Bindings Registered} (h : b.Sorted) :
    (gs.foldl settle b).Sorted := by
  induction gs generalizing b with
  | nil => exact h
  | cons g gs ih =>
    refine ih ?_
    unfold settle
    split
    · exact h
    · exact h.set g.name g.entry

end Tables

/-! ## All that a registry can be asked -/

section Make

variable (as : List Addition) (name : String)

theorem get?_make : (make as).get? name = (first? as name).map Registration.entry := by
  rw [make_eq, Registry.get?, get?_settleAll]
  rfl

theorem constants_get?_make : (make as).constants.get? name = latest? as name := by
  rw [make_eq, get?_placeAll, Bindings.get?_empty, Option.or_none]
  rfl

theorem functions_sorted : (make as).functions.Sorted := by
  rw [make_eq]
  exact sorted_settleAll _ Bindings.sorted_empty

/-- The names of the table are those that registrations asked for, each once. -/
theorem names_perm : (make as).functions.names.Perm (names as).dedup := by
  refine (List.perm_ext_iff_of_nodup (functions_sorted as).nodup (names as).nodup_dedup).2 fun name => ?_
  have hget : (make as).functions.get? name = (first? as name).map Registration.entry := get?_make as name
  rw [Bindings.mem_names, hget, Option.isSome_map, List.mem_dedup, mem_names]

end Make

/-- The listing has the entries of the table. -/
theorem listing_perm (r : Registry) : r.listing.Perm r.functions.values := List.mergeSort_perm _ _

/-- the order in which the listing puts its entries -/
def notAfter (e e' : Registered) : Bool := !(e'.info.name < e.info.name)

theorem notAfter_iff {e e' : Registered} : notAfter e e' = true ↔ e.info.name ≤ e'.info.name := by
  rw [notAfter, Bool.not_eq_true', decide_eq_false_iff_not, String.not_lt]

/-- **The listing is in order** of the names in the descriptions. -/
theorem listing_ordered (r : Registry) : r.listing.Pairwise fun e e' => e.info.name ≤ e'.info.name := by
  have htrans : ∀ a b c, notAfter a b = true → notAfter b c = true → notAfter a c = true :=
    fun a b c h h' => notAfter_iff.2 (String.le_trans (notAfter_iff.1 h) (notAfter_iff.1 h'))
  have htotal : ∀ a b, (notAfter a b || notAfter b a) = true := by
    intro a b
    rw [Bool.or_eq_true, notAfter_iff, notAfter_iff]
    exact String.le_total _ _
  exact (List.pairwise_mergeSort htrans htotal r.functions.values).imp notAfter_iff.1

/-- the registry answers every question by the first registration and the latest constant of a name -/
structure Keeps (as : List Addition) (r : Registry) : Prop where
  /-- A name leads to the description, the code, the value and the source of its first registration. -/
  entry : ∀ name, r.get? name = (first? as name).map Registration.entry
  resolved : ∀ name, r.resolve name =
    match first? as name with
    | some g => .ok g.entry
    | none => .error (.notFound name)
  /-- The value has the identity of the first registration. -/
  function : ∀ name, r.function? name = (first? as name).map Registration.value
  source : ∀ name, r.source? name = (first? as name).map Registration.source
  contained : ∀ name, r.contains name = (first? as name).isSome
  constant : ∀ name, r.constant? name = (latest? as name).map Constant.value
  /-- Every name counts once. -/
  size : r.size = (names as).dedup.length
  empty : r.isEmpty = (names as).isEmpty
  /-- The first registration of a name succeeds. -/
  granted : ∀ g, first? as g.name = none → attempt r g = .ok (make (as ++ [.function g]))
  /-- A later one fails with the source of the first. -/
  refused : ∀ g f, first? as g.name = some f → attempt r g = .error (.conflict g.name f.source)
  /-- It changes nothing, whoever asks for it. -/
  ignored : ∀ a g, a.registration? = some g → (first? as g.name).isSome → make (as ++ [a]) = r
  /-- The listing has one row for every name, with the entry of the name. -/
  rows : (r.listing.map some).Perm ((names as).dedup.map r.get?)
  ordered : r.listing.Pairwise fun e e' => e.info.name ≤ e'.info.name

/-- **Additions in any order** make a registry that keeps the first registrations. -/
theorem keeps_make (as : List Addition) : Keeps as (make as) where
  entry := get?_make as
  resolved name := by
    rw [Registry.resolve, get?_make]
    cases first? as name <;> rfl
  function name := by
    rw [Registry.function?, get?_make, Option.map_map]
    rfl
  source name := by
    rw [Registry.source?, get?_make, Option.map_map]
    rfl
  contained name := by
    have hget : (make as).functions.get? name = _ := get?_make as name
    rw [Registry.contains, Bindings.contains, hget, Option.isSome_map]
  constant name := by rw [Registry.constant?, constants_get?_make]
  size := by
    rw [← (names_perm as).length_eq]
    exact (List.length_map _).symm
  empty := by
    have hempty : (make as).isEmpty = (make as).functions.names.isEmpty := List.isEmpty_map.symm
    rw [hempty, (names_perm as).isEmpty_eq, Bool.eq_iff_iff, List.isEmpty_iff, List.isEmpty_iff, List.dedup_eq_nil]
  granted g hg := by
    have hfree : (make as).get? g.name = none := by rw [get?_make, hg]; rfl
    rw [make_concat, add, attempt_eq, hfree]
  refused g f hf := by
    have htaken : (make as).get? g.name = some f.entry := by rw [get?_make, hf]; rfl
    rw [attempt_eq, htaken]
    rfl
  ignored a g ha hg := by
    obtain ⟨f, hf⟩ := Option.isSome_iff_exists.1 hg
    have htaken : (make as).get? g.name = some f.entry := by rw [get?_make, hf]; rfl
    rw [make_concat, add_registration ha, settle_taken htaken, eta]
  rows := by
    calc List.Perm ((make as).listing.map some) ((make as).functions.values.map some) := (listing_perm _).map some
      _ = (make as).functions.names.map (make as).get? := (functions_sorted as).map_get?_names.symm
      List.Perm _ ((names as).dedup.map (make as).get?) := (names_perm as).map _
  ordered := listing_ordered (make as)

/-- What stands under a name stays there, whatever is added. -/
theorem get?_make_append {as : List Addition} {name : String} {e : Registered} (h : (make as).get? name = some e)
    (more : List Addition) : (make (as ++ more)).get? name = some e := by
  rw [get?_make] at h ⊢
  obtain ⟨g, hg, rfl⟩ := Option.map_eq_some_iff.1 h
  rw [first?_append, hg]
  rfl

/-- What has no part in a list of additions can be left out of it. -/
theorem filterMap_filter {β : Type} {f : Addition → Option β} {p : Addition → Bool}
    (h : ∀ a, (f a).isSome → p a = true) (as : List Addition) : (as.filter p).filterMap f = as.filterMap f := by
  rw [List.filterMap_filter]
  refine List.filterMap_congr fun a _ => ?_
  cases hf : f a with
  | none => exact ite_self none
  | some b => exact if_pos (h a (by rw [hf]; rfl))

/-- **Functions and constants do not meet.** Each table is what the additions meant for it make on their own. -/
theorem make_apart (as : List Addition) :
    (make as).functions = (make (as.filter fun a => a.constant?.isNone)).functions ∧
      (make as).constants = (make (as.filter fun a => a.registration?.isNone)).constants := by
  have hregistrations : registrations (as.filter fun a => a.constant?.isNone) = registrations as :=
    filterMap_filter (fun a h => (isNone_constant? a).trans h) as
  have hconstants : constants (as.filter fun a => a.registration?.isNone) = constants as :=
    filterMap_filter (fun a h => (isNone_registration? a).trans h) as
  simp only [make_eq, hregistrations, hconstants, and_self]

/-! ## Copies -/

/-- something that a host does with its registries -/
inductive Act where
  | add (handle : Nat) (a : Addition)
  /-- A copy of a registry, under the next handle. -/
  | clone (handle : Nat)

/-- the registries after an act -/
def act (rs : List Registry) : Act → List Registry
  | .add i a => rs.modify i fun r => add r a
  | .clone i => rs ++ rs[i]?.toList

/-- the registries of a host that starts with an empty one -/
def registries (acts : List Act) : List Registry := acts.foldl act [.empty]

theorem registries_append (acts more : List Act) : registries (acts ++ more) = more.foldl act (registries acts) :=
  List.foldl_append

/-- what an act adds to the registry of a handle -/
def Act.addition? (i : Nat) : Act → Option Addition
  | add j a => if j = i then some a else none
  | clone _ => none

section Acts

variable {rs : List Registry} {i : Nat} {r : Registry}

/-- **One act** adds to a registry what is meant for it. -/
theorem getElem?_act (h : rs[i]? = some r) (a : Act) :
    (act rs a)[i]? = some ((a.addition? i).toList.foldl add r) := by
  cases a with
  | add j a =>
    simp only [act, List.getElem?_modify, h, Act.addition?]
    split <;> rfl
  | clone j =>
    rw [act, List.getElem?_append_left (List.getElem?_eq_some_iff.1 h).1, h]
    rfl

/-- **Any number of acts.** -/
theorem getElem?_actAll (h : rs[i]? = some r) (acts : List Act) :
    (acts.foldl act rs)[i]? = some ((acts.filterMap (Act.addition? i)).foldl add r) := by
  induction acts generalizing rs r with
  | nil => exact h
  | cons a acts ih =>
    rw [List.foldl_cons, ih (getElem?_act h a), List.filterMap_cons]
    cases a.addition? i <;> rfl

/-- An act leaves registries that are made by additions. -/
theorem made_act (h : ∀ r ∈ rs, ∃ as, r = make as) (a : Act) : ∀ r ∈ act rs a, ∃ as, r = make as := by
  intro r hr
  cases a with
  | add j a =>
    obtain ⟨i, hi⟩ := List.mem_iff_getElem?.1 hr
    rw [act, List.getElem?_modify] at hi
    obtain ⟨r', hr', rfl⟩ := Option.map_eq_some_iff.1 hi
    obtain ⟨as, rfl⟩ := h r' (List.mem_of_getElem? hr')
    split
    · exact ⟨as ++ [a], (make_concat as a).symm⟩
    · exact ⟨as, rfl⟩
  | clone j =>
    rcases List.mem_append.1 hr with hr | hr
    · exact h r hr
    · exact h r (List.mem_of_getElem? (Option.mem_toList.1 hr))

/-- **Every registry** of a host is made by additions. -/
theorem made_of_mem (acts : List Act) : ∀ r ∈ registries acts, ∃ as, r = make as := by
  refine List.foldlRecOn acts act (motive := fun rs => ∀ r ∈ rs, ∃ as, r = make as) ?_ fun rs h a _ => made_act h a
  intro r hr
  exact ⟨[], List.mem_singleton.1 hr⟩

end Acts

/-! ## Main result -/

/-- **First registrations stay.** For all additions to an empty registry, in any order:
- every question is answered by the first registration of a name and by the latest constant of a name, and the first
  registration is the one that succeeds;
- what stands under a name stands there whatever is added;
- constants do not change the functions, nor registrations the constants.
A registry of a host is made by additions, at any point and through any number of copies. A copy of it is the same
registry, and what the host does from then on changes the original only where it adds to it. -/
theorem first_registrations_stay :
    (∀ as, Keeps as (make as)) ∧
    (∀ as more name e, (make as).get? name = some e → (make (as ++ more)).get? name = some e) ∧
    (∀ as, (make as).functions = (make (as.filter fun a => a.constant?.isNone)).functions ∧
      (make as).constants = (make (as.filter fun a => a.registration?.isNone)).constants) ∧
    ∀ acts i r, (registries acts)[i]? = some r →
      (∃ as, r = make as) ∧ registries (acts ++ [.clone i]) = registries acts ++ [r] ∧
        ∀ more, (registries (acts ++ more))[i]? = some ((more.filterMap (Act.addition? i)).foldl add r) := by
  refine ⟨keeps_make, fun as more name e h => get?_make_append h more, make_apart, ?_⟩
  intro acts i r hr
  refine ⟨made_of_mem acts r (List.mem_of_getElem? hr), ?_, fun more => ?_⟩
  · rw [registries_append, List.foldl_cons, List.foldl_nil, act, hr]
    rfl
  · rw [registries_append, getElem?_actAll hr]

/-! ## Witness: two functions under one name -/

/-- a built-in function `f` -/
def early : Registration := ⟨"f", .plain "f" (.exact 1), .builtin .sin, .builtin, 0⟩

/-- a plugin's function that is registered as `g` and described as `a` -/
def renamed : Registration := ⟨"g", .plain "a" (.exact 1), .host [] fun _ => .ok (.argument 0), .plugin "demo", 1⟩

/-- a plugin's function that comes too late for its name -/
def late : Registration := ⟨"f", .plain "f" (.exact 2), .host [] fun _ => .ok (.argument 1), .plugin "demo", 2⟩

/-- the two that come in time, and a constant under the name of the first -/
def additions : List Addition :=
  [.builtin early.info early.call early.id, .constant ⟨"f", 2.5, ""⟩, .function renamed]

/-- The renamed function comes first in the listing, since descriptions are in order there. -/
theorem renamed_listed_first : (make additions).listing = [renamed.entry, early.entry] := by
  have hkeeps : Keeps additions (make additions) := keeps_make additions
  have hrows : (make additions).listing.Perm [early.entry, renamed.entry] := by
    have hnames : (names additions).dedup = ["f", "g"] := by decide
    have hearly : (make additions).get? "f" = some early.entry := by rw [hkeeps.entry]; rfl
    have hrenamed : (make additions).get? "g" = some renamed.entry := by rw [hkeeps.entry]; rfl
    have hsome := hkeeps.rows.filterMap id
    rw [hnames, List.map_cons, List.map_cons, hearly, hrenamed] at hsome
    simpa using hsome
  refine (hrows.trans (.swap _ _ _)).eq_of_pairwise (fun e e' he he' hle hge => ?_) hkeeps.ordered (by decide)
  have hnever : ¬ early.info.name ≤ renamed.info.name := by decide
  rcases List.mem_pair.1 (hrows.mem_iff.1 he) with rfl | rfl <;> rcases List.mem_pair.1 he' with rfl | rfl
  · exact absurd hle hnever
  · rfl
  · rfl
  · exact absurd hge hnever

/-- The late function is refused in the name of the built-in, which stays, and the constant stands beside it. What is then
added to a copy is not in the original. -/
theorem late_refused :
    let r := make additions
    let host := additions.map (Act.add 0)
    first? additions "f" = some early ∧ attempt r late = .error (.conflict "f" .builtin) ∧
      make (additions ++ [.function late]) = r ∧ r.constant? "f" = some 2.5 ∧ r.size = 2 ∧
      r.listing = [renamed.entry, early.entry] ∧
      r.get? "f" = some early.entry ∧ (make (additions ++ [.function late])).get? "f" = some early.entry ∧
      (registries host)[0]? = some r ∧ registries (host ++ [.clone 0]) = registries host ++ [r] ∧
      (registries (host ++ [.clone 0, .add 1 (.constant ⟨"f", 3.5, ""⟩)]))[0]? = some r := by
  intro r host
  have hkeeps : Keeps additions r := first_registrations_stay.1 additions
  have hfirst : first? additions "f" = some early := by rfl
  have htaken : (first? additions late.name).isSome := by rfl
  have hget : r.get? "f" = some early.entry := by rw [hkeeps.entry, hfirst]; rfl
  have hhost : (registries host)[0]? = some r := by rfl
  obtain ⟨-, hclone, hmore⟩ := first_registrations_stay.2.2.2 host 0 r hhost
  exact ⟨hfirst, hkeeps.refused late early hfirst, hkeeps.ignored _ late rfl htaken, hkeeps.constant "f",
    hkeeps.size.trans (by decide), renamed_listed_first, hget,
    first_registrations_stay.2.1 additions [.function late] "f" early.entry hget, hhost, hclone,
    hmore [.clone 0, .add 1 (.constant ⟨"f", 3.5, ""⟩)]⟩

end CurveScript.Registrations
