/-
Reading decimal numbers.

A decimal number has an optional sign, digits with at most one point among them, and an optional exponent. It is read
as the nearest double; a tie goes to the even neighbour. Numbers whose leading digit stands far outside the range of
doubles are zero or infinite whatever their digits are, so no exponent makes reading slow.
-/

namespace CurveScript.Double

/-- the value of a run of decimal digits -/
def digitsValue (digits : List Char) : Nat :=
  digits.foldl (fun n c => 10 * n + (c.toNat - '0'.toNat)) 0

/-- the double nearest to `digits * 10 ^ exponent` -/
def ofDecimal (digits : Nat) (exponent : Int) : Float :=
  if digits = 0 then 0.0
  else
    let leading := (Nat.toDigits 10 digits).length + exponent
    if 400 < leading then 1.0 / 0.0
    else if leading < -400 then 0.0
    else if exponent < 0 then Float.ofScientific digits true exponent.natAbs
    else Float.ofScientific digits false exponent.natAbs

/-- the parts of a decimal number without its sign -/
structure Parts where
  whole : List Char
  fraction : List Char
  exponent : Int
  deriving DecidableEq

/-- the digits after an exponent mark and sign, which must be all that is left -/
def exponentDigits? (cs : List Char) : Option Nat :=
  if cs ≠ [] ∧ cs.all Char.isDigit then some (digitsValue cs) else none

/-- the exponent that follows the digits: none, or a mark, an optional sign and digits up to the end -/
def exponent? : List Char → Option Int
  | [] => some 0
  | mark :: cs =>
    if mark = 'e' ∨ mark = 'E' then
      match cs with
      | '-' :: r => (exponentDigits? r).map fun n => -(n : Int)
      | '+' :: r => (exponentDigits? r).map fun n => (n : Int)
      | r => (exponentDigits? r).map fun n => (n : Int)
    else none

/-- the text as the parts of an unsigned decimal number, at least one digit before the exponent -/
def parts? (cs : List Char) : Option Parts :=
  let whole := cs.takeWhile Char.isDigit
  let (fraction, rest) :=
    match cs.dropWhile Char.isDigit with
    | '.' :: r => (r.takeWhile Char.isDigit, r.dropWhile Char.isDigit)
    | r => ([], r)
  if whole = [] ∧ fraction = [] then none else (exponent? rest).map fun e => ⟨whole, fraction, e⟩

/-- the double nearest to the number the parts write -/
def Parts.value (p : Parts) : Float :=
  ofDecimal (digitsValue (p.whole ++ p.fraction)) (p.exponent - p.fraction.length)

/-- the double that a decimal number, with an optional sign in front, is read as -/
def ofChars? : List Char → Option Float
  | '-' :: cs => (parts? cs).map fun p => -p.value
  | '+' :: cs => (parts? cs).map Parts.value
  | cs => (parts? cs).map Parts.value

end CurveScript.Double
