/-
Operators on values.

Two integers stay integers where the operation is closed over them, exactly or not at all; division always gives a
float, and so does any operation with a float operand. A result that is infinite or not a number is an error, so floats
that operators give are finite. Comparisons give 1 or 0.
-/
import CurveScript.Double.Remainder
import CurveScript.Value

namespace CurveScript.Value

/-- the operands of an operator, brought to one kind of number -/
inductive Operands where
  | integers (a b : Int64)
  | floats (x y : Float)

/-- the operands as numbers of one kind -/
def operands (op : BinaryOperator) (lhs rhs : Value) : Except EvalError Operands :=
  match lhs, rhs with
  | integer a, integer b => .ok (.integers a b)
  | l, r =>
    match l.number?, r.number? with
    | some x, some y => .ok (.floats x y)
    | _, _ => .error (.typeMismatch op l.kind r.kind)

/-- a float result, if it is finite -/
def finite (op : BinaryOperator) (x : Float) : Except EvalError Value :=
  if x.isFinite then .ok (float x) else .error (.overflow op.symbol)

/-- an integer result, if there is one -/
def checked (op : BinaryOperator) (n : Option Int64) : Except EvalError Value :=
  match n with
  | some n => .ok (integer n)
  | none => .error (.overflow op.symbol)

/-- the power of two floats -/
def power (x y : Float) : Except EvalError Value :=
  if x == 0.0 && y < 0.0 then .error .divisionByZero
  else
    let r := x.pow y
    if r.isNaN then .error (.domain "^" "negative base with fractional exponent")
    else finite .pow r

/-- the number of the exponents that an exact power may have -/
def exponentCount : Nat := 4294967296

/-- the power of two integers: exact for an exponent that is not negative -/
def integerPower (a b : Int64) : Except EvalError Value :=
  if b.toInt < 0 then power (Integer.toDouble a) (Integer.toDouble b)
  else if exponentCount ≤ b.toInt.toNat then .error (.overflow BinaryOperator.pow.symbol)
  else checked .pow (Integer.pow? a b.toInt.toNat)

/-- how two numbers compare; a float that is not a number compares with nothing -/
def compareOperands : Operands → Option Ordering
  | .integers a b => some (compare a.toInt b.toInt)
  | .floats x y => if x < y then some .lt else if x == y then some .eq else if y < x then some .gt else none

/-- whether a comparison holds of operands that compare in this way -/
def holds : BinaryOperator → Option Ordering → Bool
  | .eq, o => o == some .eq
  | .ne, o => o != some .eq
  | .lt, o => o == some .lt
  | .le, o => o == some .lt || o == some .eq
  | .gt, o => o == some .gt
  | .ge, o => o == some .gt || o == some .eq
  | _, _ => false

/-- the answer of a comparison -/
def truth (b : Bool) : Value := integer (if b then 1 else 0)

/-- an operator on two integers -/
def integerOperation (op : BinaryOperator) (a b : Int64) : Except EvalError Value :=
  match op with
  | .add => checked op (Integer.add? a b)
  | .sub => checked op (Integer.sub? a b)
  | .mul => checked op (Integer.mul? a b)
  | .div => if b = 0 then .error .divisionByZero else finite op (Integer.toDouble a / Integer.toDouble b)
  | .rem => if b = 0 then .error .divisionByZero else checked op (Integer.rem? a b)
  | .pow => integerPower a b
  | _ => .ok (truth (holds op (compareOperands (.integers a b))))

/-- an operator on two floats -/
def floatOperation (op : BinaryOperator) (x y : Float) : Except EvalError Value :=
  match op with
  | .add => finite op (x + y)
  | .sub => finite op (x - y)
  | .mul => finite op (x * y)
  | .div => if y == 0.0 then .error .divisionByZero else finite op (x / y)
  | .rem => if y == 0.0 then .error .divisionByZero else finite op (Double.remainder x y)
  | .pow => power x y
  | _ => .ok (truth (holds op (compareOperands (.floats x y))))

/-- an operator between two values -/
def binary (op : BinaryOperator) (lhs rhs : Value) : Except EvalError Value :=
  match operands op lhs rhs with
  | .error e => .error e
  | .ok (.integers a b) => integerOperation op a b
  | .ok (.floats x y) => floatOperation op x y

/-- the value with the other sign -/
def negate : Value → Except EvalError Value
  | integer n =>
    match Integer.neg? n with
    | some m => .ok (integer m)
    | none => .error (.overflow "-")
  | float x => .ok (float (-x))
  | v => .error (.invalidOperand "-" v.kind)

/-- the value itself, if it is a number -/
def identity (v : Value) : Except EvalError Value :=
  if v.isNumeric then .ok v else .error (.invalidOperand "+" v.kind)

/-- an operator before a value -/
def unary : UnaryOperator → Value → Except EvalError Value
  | .negate, v => v.negate
  | .plus, v => v.identity

end CurveScript.Value
