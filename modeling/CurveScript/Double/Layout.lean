/-
How the digits of a double are laid out.

A layout records the decisions of one format: the decimal exponents that are written without an exponent, whether a
whole number keeps a fraction of zero, the sign of a positive exponent, and ties between equally short candidates. The
language has three: values as scripts write them, numbers inside messages, and numbers of a JSON document.
-/
import CurveScript.Double.Shortest

namespace CurveScript.Double

/-- the decisions of one number format -/
structure Layout where
  /-- The exponents of the leading digit that are written out without an exponent; `none` stands for all. -/
  positional : Option (Int × Int)
  /-- Whether a whole number is followed by a point and a zero. -/
  wholeFraction : Bool
  /-- Whether a positive exponent has a sign. -/
  plusSign : Bool
  tie : Tie
  deriving DecidableEq

/-- Values: a fraction is always shown, so that no float looks like an integer, and an exponent is used from 10^16 up
and below 10^-4. -/
def valueLayout : Layout := ⟨some (-4, 15), true, false, .up⟩

/-- Numbers inside messages: never an exponent, and a whole number has no fraction. -/
def messageLayout : Layout := ⟨none, false, false, .up⟩

/-- Numbers of a JSON document: an exponent is used from 10^16 up, with its sign, and below 10^-5. -/
def jsonLayout : Layout := ⟨some (-5, 15), true, true, .toEven⟩

/-- the decimal digits of a whole number -/
def digitChars (n : Nat) : List Char := Nat.toDigits 10 n

/-- whether a leading digit at exponent `e` is written without an exponent -/
def Layout.writesOut (l : Layout) (e : Int) : Bool :=
  match l.positional with
  | none => true
  | some (low, high) => low ≤ e && e ≤ high

/-- digits with the point after the first `whole` of them, filled up with zeros on either side -/
def positionalText (l : Layout) (digits : List Char) (whole : Int) : List Char :=
  if whole ≤ 0 then '0' :: '.' :: (List.replicate (-whole).toNat '0' ++ digits)
  else
    let n := whole.toNat
    if digits.length ≤ n then
      digits ++ List.replicate (n - digits.length) '0' ++ (if l.wholeFraction then ['.', '0'] else [])
    else digits.take n ++ '.' :: digits.drop n

/-- one digit before the point, the others after it, and the exponent -/
def exponentText (l : Layout) (digits : List Char) (e : Int) : List Char :=
  digits.take 1 ++ (if digits.length ≤ 1 then [] else '.' :: digits.drop 1) ++
    'e' :: ((if e < 0 then ['-'] else if l.plusSign then ['+'] else []) ++ digitChars e.natAbs)

/-- a decimal number in the layout -/
def Layout.decimalText (l : Layout) (d : Decimal) : List Char :=
  let digits := digitChars d.digits
  let e := d.exponent + digits.length - 1
  if l.writesOut e then positionalText l digits (e + 1) else exponentText l digits e

/-- a finite double in the layout, without its sign -/
def Layout.unsignedText (l : Layout) (b : Binary) : List Char :=
  if b.mantissa = 0 then positionalText l ['0'] 1 else l.decimalText (b.shortest l.tie)

/-- the characters of a double in the layout; the two zeros differ in their sign -/
def Layout.chars (l : Layout) (x : Float) : List Char :=
  if x.isNaN then ['N', 'a', 'N']
  else
    let sign := if isNegative x then ['-'] else []
    if x.isFinite then sign ++ l.unsignedText (toBinary x) else sign ++ ['i', 'n', 'f']

/-- a double in the layout -/
def Layout.text (l : Layout) (x : Float) : String := String.ofList (l.chars x)

/-- a float as a value is shown -/
def valueText (x : Float) : String := valueLayout.text x

/-- a float as messages show it -/
def messageText (x : Float) : String := messageLayout.text x

end CurveScript.Double
