/-
The registry of native functions and constants.

Names are unique: the first registration of a name is kept and later ones are refused, whoever they come from. Constants
have names of their own, apart from the functions', and a later constant replaces an earlier one. Every registered
function gets an identity when it is registered, which it keeps as long as the registry lives.
-/
import CurveScript.Builtin.Call
import CurveScript.Plugin.Call
import CurveScript.Text.Quoted

namespace CurveScript

namespace NativeCall

/-- the native function on a list of arguments of any length, with a way to enter those of plugins -/
def callBy {σ : Type} (entrance : Plugin.Entrance σ) : NativeCall → List Value → σ → Except EvalError Value × σ
  | builtin b, args, s => (b.call args, s)
  | plugin f, args, s => f.callBy entrance args s
  | host kept rule, args, s => ((rule (args.map Value.seen)).map (Choice.value kept args), s)

/-- the native function on a list of arguments of any length -/
def call (c : NativeCall) (args : List Value) : Except EvalError Value := (c.callBy .plain args ()).1

end NativeCall

/-- why a request to the registry was refused -/
inductive RegistryError where
  | conflict (name : String) (existing : Source)
  | notFound (name : String)
  deriving DecidableEq

/-- the message of a registry error -/
def RegistryError.message : RegistryError → String
  | conflict name existing => "function '" ++ name ++ "' is already registered by " ++ existing.text
  | notFound name => "function '" ++ name ++ "' is not registered"

namespace Registry

/-- nothing registered -/
def empty : Registry := ⟨.empty, .empty⟩

/-- the entry of a name -/
def get? (r : Registry) (name : String) : Option Registered := r.functions.get? name

/-- the function of a name as a value -/
def function? (r : Registry) (name : String) : Option FunctionValue := (r.get? name).map Registered.value

/-- the constant of a name -/
def constant? (r : Registry) (name : String) : Option Float := (r.constants.get? name).map Constant.value

/-- who registered a name -/
def source? (r : Registry) (name : String) : Option Source := (r.get? name).map Registered.source

/-- the entry of a name, or why there is none -/
def resolve (r : Registry) (name : String) : Except RegistryError Registered :=
  match r.get? name with
  | some entry => .ok entry
  | none => .error (.notFound name)

/-- whether a function is registered under a name -/
def contains (r : Registry) (name : String) : Bool := r.functions.contains name

/-- the number of registered functions -/
def size (r : Registry) : Nat := r.functions.size

/-- whether no function is registered -/
def isEmpty (r : Registry) : Bool := r.functions.isEmpty

/-- a native function as an entry under a name, with the identity `id` -/
def entry (name : String) (info : FunctionInfo) (call : NativeCall) (source : Source) (id : Nat) : Registered :=
  ⟨info, call, ⟨some name, id, .native info.arity call, none⟩, source⟩

/-- registers a function under a name that is free -/
def register (r : Registry) (name : String) (info : FunctionInfo) (call : NativeCall) (source : Source) (id : Nat) :
    Except RegistryError Registry :=
  match r.get? name with
  | some existing => .error (.conflict name existing.source)
  | none => .ok { r with functions := r.functions.set name (entry name info call source id) }

/-- Registers a built-in under its own name; the registry stays as it is where the name is taken. -/
def withFunction (r : Registry) (info : FunctionInfo) (call : NativeCall) (id : Nat) : Registry :=
  match r.register info.name info call .builtin id with
  | .ok r' => r'
  | .error _ => r

/-- adds a constant, in place of an earlier one of its name -/
def withConstant (r : Registry) (c : Constant) : Registry := { r with constants := r.constants.set c.name c }

/-- all entries in the order of the names that their descriptions give -/
def listing (r : Registry) : List Registered :=
  r.functions.values.mergeSort fun a b => !(b.info.name < a.info.name)

/-- all constants in the order of their names -/
def constantListing (r : Registry) : List Constant := r.constants.values

/-- the registry as a diagnostic shows it -/
def inspect (r : Registry) : String :=
  "FunctionRegistry \x7b functions: " ++ Text.bracketed (r.functions.names.map Text.quoted) ++ ", constants: " ++
    toString r.constants.size ++ " \x7d"

/-- registers built-in functions in turn, with identities from `id` on -/
def withBuiltins (r : Registry) (id : Nat) : List Builtin → Registry
  | [] => r
  | b :: bs => (r.withFunction b.info (.builtin b) id).withBuiltins (id + 1) bs

/-- the number of identities that the standard registry uses -/
def standardIdentities : Nat := Builtin.all.length

/-- the registry of all built-in functions and constants, with identities from `id` on -/
def standard (id : Nat) : Registry :=
  ((empty.withBuiltins id Builtin.all).withConstant .pi).withConstant .e

end Registry

end CurveScript
