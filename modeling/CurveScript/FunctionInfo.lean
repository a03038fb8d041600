/-
What listings say about a function, and where a function comes from.
-/
import CurveScript.Arity

namespace CurveScript

/-- the description of a function -/
structure FunctionInfo where
  name : String
  description : String
  usage : String
  arity : Arity
  category : String
  deriving DecidableEq

/-- a function that is described by no more than its name and arity -/
def FunctionInfo.plain (name : String) (arity : Arity) : FunctionInfo :=
  ⟨name, "", name ++ "(…)", arity, "misc"⟩

/-- who provides a function -/
inductive Source where
  | builtin
  | plugin (provider : String)
  deriving DecidableEq

/-- the source as messages show it -/
def Source.text : Source → String
  | builtin => "built-in"
  | plugin provider => "plugin '" ++ provider ++ "'"

end CurveScript
