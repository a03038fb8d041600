/-
Integers of the language: the 64-bit signed numbers.

Arithmetic on them is exact. Its result is computed among all integers and is an integer of the language exactly when
it lies in the 64-bit range.
-/

namespace CurveScript.Integer

/-- Whether a number lies in the 64-bit signed range. -/
def InRange (n : Int) : Prop := -9223372036854775808 ≤ n ∧ n < 9223372036854775808

instance (n : Int) : Decidable (InRange n) := inferInstanceAs (Decidable (_ ∧ _))

/-- the integer of the language, if the number lies in the range -/
def ofInt? (n : Int) : Option Int64 := if InRange n then some (Int64.ofInt n) else none

/-- the decimal characters of an integer -/
def chars (n : Int64) : List Char :=
  (if n.toInt < 0 then ['-'] else []) ++ Nat.toDigits 10 n.toInt.natAbs

/-- the decimal text of an integer -/
def text (n : Int64) : String := String.ofList (chars n)

/-- the double nearest to an integer -/
def toDouble (n : Int64) : Float := Float.ofInt n.toInt

theorem inRange_toInt (n : Int64) : InRange n.toInt := by
  have h := n.toInt_lt
  have h' := n.le_toInt
  exact ⟨by omega, by omega⟩

/-- A number in the range is kept. -/
theorem toInt_of_ofInt? {n : Int} {i : Int64} (h : ofInt? n = some i) : i.toInt = n := by
  unfold ofInt? at h
  split at h
  · next hr =>
    simp only [Option.some.injEq] at h
    subst h
    obtain ⟨hlow, hhigh⟩ := hr
    exact Int64.toInt_ofInt_of_le (by omega) (by omega)
  · simp at h

/-- An integer of the language is kept as it is. -/
theorem ofInt?_toInt (n : Int64) : ofInt? n.toInt = some n := by
  rw [ofInt?, if_pos (inRange_toInt n), Int64.ofInt_toInt]

/-! ## Arithmetic -/

/-- the sum, if it is in the range -/
def add? (a b : Int64) : Option Int64 := ofInt? (a.toInt + b.toInt)

/-- the difference, if it is in the range -/
def sub? (a b : Int64) : Option Int64 := ofInt? (a.toInt - b.toInt)

/-- the product, if it is in the range -/
def mul? (a b : Int64) : Option Int64 := ofInt? (a.toInt * b.toInt)

/-- the number with the other sign, if it is in the range -/
def neg? (a : Int64) : Option Int64 := ofInt? (-a.toInt)

/-- the number without its sign, if it is in the range -/
def abs? (a : Int64) : Option Int64 := ofInt? a.toInt.natAbs

/-- The remainder of a division that truncates toward zero. There is none where the quotient itself leaves the range,
which happens for the least integer and -1 alone. -/
def rem? (a b : Int64) : Option Int64 :=
  if InRange (a.toInt.tdiv b.toInt) then ofInt? (a.toInt.tmod b.toInt) else none

/-- The power, if it is in the range. From 64 on an exponent counts only by its parity: a base of at least two in size
has left the range by then, and the powers of the others repeat. -/
def pow? (a : Int64) (n : Nat) : Option Int64 := ofInt? (a.toInt.pow (if n < 64 then n else 64 + n % 2))

end CurveScript.Integer
