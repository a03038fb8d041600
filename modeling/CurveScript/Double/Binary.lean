/-
Doubles as exact numbers.

A finite double is a sign, a whole mantissa and a power of two. `Binary.ofBits` reads the three fields of the bit
pattern; everything that needs the exact value of a double (its shortest digits, the remainder of a division) works on
the result in natural numbers.
-/

namespace CurveScript.Double

/-- the number `± mantissa * 2 ^ exponent` -/
structure Binary where
  negative : Bool
  mantissa : Nat
  exponent : Int
  deriving DecidableEq

/-- the leading bit of the mantissa that the fraction field leaves out: `2 ^ 52` -/
def impliedBit : Nat := 4503599627370496

/-- the sign bit of a pattern -/
def signBit (bits : Nat) : Bool := bits.testBit 63

/-- the biased exponent field of a pattern -/
def exponentField (bits : Nat) : Nat := bits / impliedBit % 2048

/-- the fraction field of a pattern -/
def fractionField (bits : Nat) : Nat := bits % impliedBit

/-- the number that the pattern of a finite double stands for: a zero exponent field has no implied leading bit -/
def Binary.ofBits (bits : Nat) : Binary :=
  if exponentField bits = 0 then ⟨signBit bits, fractionField bits, -1074⟩
  else ⟨signBit bits, impliedBit + fractionField bits, (exponentField bits : Int) - 1075⟩

/-- the exact value of a finite double -/
def toBinary (x : Float) : Binary := Binary.ofBits x.toBits.toNat

/-- the sign bit of a double, which also tells the two zeros apart -/
def isNegative (x : Float) : Bool := signBit x.toBits.toNat

end CurveScript.Double
