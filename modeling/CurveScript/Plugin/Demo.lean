/-
The demonstration plugin: four scalar functions.
-/
import CurveScript.Builtin
import CurveScript.Plugin.Declaration

namespace CurveScript.Plugin.Demo

/-- `sin(x) / x`, and 1 at zero -/
def sinc : ScalarFunction where
  name := "sinc"
  arity := 1
  run
    | [x] => .value (if x == 0.0 then 1.0 else x.sin / x)
    | _ => .crashed

/-- the density at `x` of the normal distribution with mean `mu` and a positive deviation `sigma` -/
def gaussian : ScalarFunction where
  name := "gaussian"
  arity := 3
  run
    | [x, mu, sigma] =>
      if sigma ≤ 0.0 then .fault .domain
      else
        let z := (x - mu) / sigma
        .value ((-0.5 * z * z).exp / (sigma * (2.0 * Constant.pi.value).sqrt))
    | _ => .crashed

/-- the logistic curve -/
def sigmoid : ScalarFunction where
  name := "sigmoid"
  arity := 1
  run
    | [x] => .value (1.0 / (1.0 + (-x).exp))
    | _ => .crashed

/-- the step from 0 to 1, halfway at zero -/
def step : ScalarFunction where
  name := "step"
  arity := 1
  run
    | [x] =>
      if x.isNaN then .fault .invalidArguments
      else .value (if 0.0 < x then 1.0 else if x < 0.0 then 0.0 else 0.5)
    | _ => .crashed

/-- the functions in the order of the declaration -/
def functions : List ScalarFunction := [sinc, gaussian, sigmoid, step]

/-- the declaration that the library exports -/
def declaration : Declaration := .ofFunctions "demo" functions

end CurveScript.Plugin.Demo
