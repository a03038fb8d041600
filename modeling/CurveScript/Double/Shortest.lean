/-
The fewest decimal digits that read back to the same double.

Every real number between the halfway points to the two neighbouring doubles reads back as the double itself, the
halfway points included exactly when the mantissa is even. For 1, 2, ... 17 digits the two points of that decimal grid
next to the value are tested against this interval in exact arithmetic. The first grid with a hit wins; of two hits
the nearer is taken, and two equally near ones are decided by the format.
-/
import CurveScript.Double.Binary

namespace CurveScript.Double

/-- which of two equally near candidates is taken -/
inductive Tie where
  | up
  | toEven
  deriving DecidableEq

/-- the number `digits * 10 ^ exponent` -/
structure Decimal where
  digits : Nat
  exponent : Int
  deriving DecidableEq

/-- The reals that read back as one double, in units of a quarter of its last place: the value itself, the two ends,
the exponent of two of the unit, and whether the ends belong to it. -/
structure Interval where
  low : Nat
  value : Nat
  high : Nat
  exponent : Int
  closed : Bool
  deriving DecidableEq

/-- The interval around a nonzero number. Below a power of two the neighbour is only half as far away, except at the
bottom of the range. -/
def Binary.interval (b : Binary) : Interval :=
  let narrow := b.mantissa = impliedBit ∧ -1074 < b.exponent
  ⟨4 * b.mantissa - (if narrow then 1 else 2), 4 * b.mantissa, 4 * b.mantissa + 2, b.exponent - 2,
    b.mantissa % 2 == 0⟩

/-- the factors `(a, b)` with `2 ^ p / 10 ^ e = a / b` -/
def scale (p e : Int) : Nat × Nat :=
  (Nat.pow 2 p.toNat * Nat.pow 10 (-e).toNat, Nat.pow 2 (-p).toNat * Nat.pow 10 e.toNat)

/-- whether the point `c` of a grid with scale `(a, b)` reads back as the double -/
def Interval.holds (i : Interval) (s : Nat × Nat) (c : Nat) : Bool :=
  if i.closed then i.low * s.1 ≤ c * s.2 && c * s.2 ≤ i.high * s.1
  else i.low * s.1 < c * s.2 && c * s.2 < i.high * s.1

/-- the point of the grid `10 ^ e` that stands for the double, if one does -/
def Interval.pick? (i : Interval) (tie : Tie) (e : Int) : Option Nat :=
  let s := scale i.exponent e
  let down := i.value * s.1 / s.2
  let up := down + 1
  match i.holds s down, i.holds s up with
  | false, false => none
  | true, false => some down
  | false, true => some up
  | true, true =>
    let twice := 2 * (i.value * s.1)
    let middle := (down + up) * s.2
    if twice < middle then some down
    else if middle < twice then some up
    else match tie with
      | .up => some up
      | .toEven => some (if down % 2 = 0 then down else up)

/-- whether the interval's value is below `10 ^ e` -/
def Interval.below (i : Interval) (e : Int) : Bool :=
  let s := scale i.exponent e
  i.value * s.1 < s.2

/-- The position of the leading digit: the least `k` with the value below `10 ^ k`, found next to an estimate from the
number of bits. -/
def Interval.leading (i : Interval) : Int :=
  let estimate := ((i.value.log2 : Int) + i.exponent) * 30103 / 100000
  if i.below (estimate - 1) then estimate - 1
  else if i.below estimate then estimate
  else if i.below (estimate + 1) then estimate + 1
  else estimate + 2

/-- tries grids of more and more digits, at most `more` of them, starting with the grid `10 ^ e` -/
def Interval.search (i : Interval) (tie : Tie) : Nat → Int → Decimal
  | 0, e => ⟨i.value * (scale i.exponent e).1 / (scale i.exponent e).2, e⟩
  | more + 1, e =>
    match i.pick? tie e with
    | some c => ⟨c, e⟩
    | none => i.search tie more (e - 1)

/-- the same number without trailing zero digits, of which at most `fuel` are dropped -/
def Decimal.dropZeros : Nat → Decimal → Decimal
  | 0, d => d
  | fuel + 1, d => if d.digits % 10 = 0 then dropZeros fuel ⟨d.digits / 10, d.exponent + 1⟩ else d

/-- the shortest decimal that reads back as the nonzero number -/
def Binary.shortest (b : Binary) (tie : Tie) : Decimal :=
  let i := b.interval
  (i.search tie 17 (i.leading - 1)).dropZeros 18

end CurveScript.Double
