/-
Reading parts of a JSON document as what they should be.

A record may be given as an object, with members in any order and unknown members ignored, or as an array of its
fields in order, where fields at the end may be left out. A number becomes a double by way of its first digits as a
64-bit whole number, scaled by one power of ten; numbers too large for that are refused.
-/
import CurveScript.Json.Syntax

namespace CurveScript

/-! ## Numbers -/

namespace JsonNumeral

/-- the greatest 64-bit whole number -/
def wordLimit : Nat := 18446744073709551615

/-- Appends digits to a number as long as it stays a 64-bit number, and says how many were appended. -/
def absorb (n taken : Nat) : List Char → Nat × Nat
  | [] => (n, taken)
  | c :: cs =>
    let next := 10 * n + (c.toNat - '0'.toNat)
    if next ≤ wordLimit then absorb next (taken + 1) cs else (n, taken)

/-- the power of ten with an exponent of at most 308 -/
def powerOfTen (n : Nat) : Float := Float.ofScientific 1 false n

/-- `x * 10 ^ e`, unless that is too large; far below the range of doubles the number is first brought nearer -/
def scaled? (x : Float) (e : Int) : Option Float :=
  if 308 < e then (if x == 0.0 then some x else none)
  else if 0 ≤ e then
    let y := x * powerOfTen e.toNat
    if y.isFinite then some y else none
  else if -308 ≤ e then some (x / powerOfTen e.natAbs)
  else if x == 0.0 then some x
  else scaled? (x / powerOfTen 308) (e + 308)
termination_by e.natAbs

/-- the greatest exponent that is computed with -/
def exponentLimit : Nat := 2147483647

/-- the size of the number as a double, unless it is too large -/
def unsigned? (n : JsonNumeral) : Option Float :=
  let (whole, taken) := absorb 0 0 n.whole
  let dropped := n.whole.length - taken
  let (digits, places) := absorb whole 0 (n.fraction.getD [])
  let start := (dropped : Int) - places
  match n.exponent with
  | none => scaled? (Float.ofNat digits) start
  | some (negative, exponent) =>
    let e := Double.digitsValue exponent
    if exponentLimit < e then (if digits = 0 ∨ negative then some 0.0 else none)
    else scaled? (Float.ofNat digits) (if negative then start - e else start + e)

/-- the number as a double -/
def double? (n : JsonNumeral) : Option Float := n.unsigned?.map fun x => if n.negative then -x else x

/-- the number as a whole number that is not negative, written without point and exponent -/
def natural? (n : JsonNumeral) : Option Nat :=
  let value := Double.digitsValue n.whole
  if n.negative ∨ n.fraction.isSome ∨ n.exponent.isSome ∨ wordLimit < value then none else some value

end JsonNumeral

/-! ## Parts of a document -/

namespace JsonSyntax

/-- a truth value -/
def bool? : JsonSyntax → Option Bool
  | bool b => some b
  | _ => none

/-- a number -/
def double? : JsonSyntax → Option Float
  | number n => n.double?
  | _ => none

/-- a whole number that is not negative -/
def natural? : JsonSyntax → Option Nat
  | number n => n.natural?
  | _ => none

/-- a text -/
def text? : JsonSyntax → Option String
  | string s => s
  | _ => none

/-- a list of texts -/
def texts? : JsonSyntax → Option (List String)
  | array items => items.mapM text?
  | _ => none

/-- One of several words: the word itself, or an object whose only member has it as its key and no content. -/
def choice? : JsonSyntax → Option String
  | string s => s
  | object [(key, null)] => key
  | _ => none

/-- the contents of the members with a key -/
def membersOf (key : String) (members : List (Option String × JsonSyntax)) : List JsonSyntax :=
  (members.filter fun m => m.1 == some key).map Prod.snd

/-- the content of the member with a key, if there is one; `none` where the key is given twice -/
def member? (members : List (Option String × JsonSyntax)) (key : String) : Option (Option JsonSyntax) :=
  match membersOf key members with
  | [] => some none
  | [d] => some (some d)
  | _ => none

/-- the fields of a record, each if it is given -/
def record? (names : List String) : JsonSyntax → Option (List (Option JsonSyntax))
  | array items => if items.length ≤ names.length then some ((List.range names.length).map (items[·]?)) else none
  | object members => if members.all fun m => m.1.isSome then names.mapM (member? members) else none
  | _ => none

/-- a field of a record read as what it should be, or its default where it is not given -/
def field? {α : Type} (fields : List (Option JsonSyntax)) (index : Nat) (read : JsonSyntax → Option α) (default : α) :
    Option α :=
  match fields[index]? with
  | some (some d) => read d
  | _ => some default

end JsonSyntax

end CurveScript
