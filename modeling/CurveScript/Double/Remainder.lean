/-
The remainder of a division of doubles.

The quotient is truncated toward zero, so the remainder has the sign of the dividend, and it is exact: both operands
are whole multiples of one power of two, and so is their remainder, which a double can hold.
-/
import CurveScript.Double.Binary

namespace CurveScript.Double

/-- `mantissa * 2 ^ exponent` as a double, exact whenever a double can hold the number -/
def ofBinary (mantissa : Nat) (exponent : Int) : Float :=
  let low := (-1074 : Int)
  if exponent < low then 0.0
  else
    let shift := exponent.toNat
    if shift = 0 then
      -- the unit is at most one: divide by the power of two in two exact steps
      let down := (-exponent).toNat
      let half := down / 2
      Float.ofNat mantissa / Float.ofNat (Nat.pow 2 half) / Float.ofNat (Nat.pow 2 (down - half))
    else Float.ofNat (mantissa * Nat.pow 2 shift)

/-- the exact remainder of two numbers, as a mantissa and an exponent, without sign -/
def Binary.remainder (x y : Binary) : Nat × Int :=
  let unit := min x.exponent y.exponent
  let a := x.mantissa * Nat.pow 2 (x.exponent - unit).toNat
  let b := y.mantissa * Nat.pow 2 (y.exponent - unit).toNat
  (a % b, unit)

/-- The remainder of `x` divided by `y`. Dividing an infinity, or by zero, has none; dividing by an infinity leaves
the dividend. -/
def remainder (x y : Float) : Float :=
  if x.isNaN || y.isNaN || !x.isFinite || y == 0.0 then 0.0 / 0.0
  else if !y.isFinite then x
  else
    let (m, e) := (toBinary x).remainder (toBinary y)
    let r := ofBinary m e
    if isNegative x then -r else r

end CurveScript.Double
