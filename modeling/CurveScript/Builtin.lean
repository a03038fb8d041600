/-
The built-in functions and constants, and what listings say about them.
-/
import CurveScript.FunctionInfo

namespace CurveScript

/-- the built-in functions -/
inductive Builtin where
  | sqrt
  | abs
  | exp
  | ln
  | log10
  | pow
  | floor
  | ceil
  | round
  | min
  | max
  | sin
  | cos
  | tan
  | asin
  | acos
  | atan
  | plot
  deriving DecidableEq

namespace Builtin

/-- all built-in functions, in the order in which they are registered -/
def all : List Builtin :=
  [sqrt, abs, exp, ln, log10, pow, floor, ceil, round, min, max, sin, cos, tan, asin, acos, atan, plot]

/-- the name under which scripts call the function -/
def name : Builtin → String
  | sqrt => "sqrt"
  | abs => "abs"
  | exp => "exp"
  | ln => "ln"
  | log10 => "log10"
  | pow => "pow"
  | floor => "floor"
  | ceil => "ceil"
  | round => "round"
  | min => "min"
  | max => "max"
  | sin => "sin"
  | cos => "cos"
  | tan => "tan"
  | asin => "asin"
  | acos => "acos"
  | atan => "atan"
  | plot => "plot"

/-- how many arguments the function accepts -/
def arity : Builtin → Arity
  | pow => .exact 2
  | min | max => .atLeast 1
  | plot => .between 1 4
  | _ => .exact 1

/-- how a call is written -/
def usage : Builtin → String
  | pow => "pow(base, exponent)"
  | min => "min(a, b, ...)"
  | max => "max(a, b, ...)"
  | plot => "plot(f[, lo, hi[, step]])"
  | b => b.name ++ "(x)"

/-- what the function computes, in a few words -/
def description : Builtin → String
  | sqrt => "Square root, x >= 0"
  | abs => "Absolute value, keeps integers integral"
  | exp => "Exponential function (e^x)"
  | ln => "Natural logarithm, x > 0"
  | log10 => "Base-10 logarithm, x > 0"
  | pow => "Same as base ^ exponent"
  | floor => "Largest whole number <= x"
  | ceil => "Smallest whole number >= x"
  | round => "Nearest whole number, halves away from zero"
  | min => "Smallest argument"
  | max => "Largest argument"
  | sin => "Sine"
  | cos => "Cosine"
  | tan => "Tangent"
  | asin => "Inverse sine, -1 <= x <= 1"
  | acos => "Inverse cosine, -1 <= x <= 1"
  | atan => "Inverse tangent"
  | plot => "Mark a function of one argument as a graph, optionally over [lo, hi]"

/-- the group of functions that it is listed under -/
def category : Builtin → String
  | sin | cos | tan | asin | acos | atan => "trig"
  | plot => "graph"
  | _ => "math"

/-- the description of a built-in function -/
def info (b : Builtin) : FunctionInfo := ⟨b.name, b.description, b.usage, b.arity, b.category⟩

end Builtin

/-- a named number -/
structure Constant where
  name : String
  value : Float
  description : String

namespace Constant

/-- the double nearest to the ratio of a circle's circumference to its diameter -/
def pi : Constant := ⟨"pi", 3.141592653589793, "Ratio of a circle's circumference to its diameter"⟩

/-- the double nearest to the base of the natural logarithm -/
def e : Constant := ⟨"e", 2.718281828459045, "Base of the natural logarithm"⟩

end Constant

end CurveScript
