/-
JSON documents as they are read.

A document is first read as its syntax: numbers keep their digits, objects keep all members in order, and a string
whose escapes name half of a character pair keeps no text. Whoever asks for a part of the document decides what it may
be; parts that nobody asks for need only be well formed.
-/
import CurveScript.Double.Reader

namespace CurveScript

/-- the digits of a number: the exponent is the sign (whether it is negative) and the digits -/
structure JsonNumeral where
  negative : Bool
  whole : List Char
  fraction : Option (List Char)
  exponent : Option (Bool × List Char)

/-- a well-formed JSON document -/
inductive JsonSyntax where
  | null
  | bool (b : Bool)
  | number (n : JsonNumeral)
  | string (s : Option String)
  | array (items : List JsonSyntax)
  | object (members : List (Option String × JsonSyntax))

namespace JsonSyntax

/-- what follows after some characters were taken -/
abbrev After (cs : List Char) := { rest : List Char // rest.length < cs.length }

/-- whether the character is blank between the parts of a document -/
def isSpace (c : Char) : Bool := c == ' ' || c == '\n' || c == '\t' || c == '\r'

/-- the characters after the blank ones at the front -/
def skip (cs : List Char) : List Char := cs.dropWhile isSpace

theorem skip_length (cs : List Char) : (skip cs).length ≤ cs.length := (List.dropWhile_sublist isSpace).length_le

/-! ## Numbers -/

/-- the digits after a point, if there is one; `none` where a point has none -/
def fraction? : List Char → Option (Option (List Char) × List Char)
  | '.' :: cs =>
    if cs.takeWhile Char.isDigit = [] then none
    else some (some (cs.takeWhile Char.isDigit), cs.dropWhile Char.isDigit)
  | cs => some (none, cs)

/-- the sign of an exponent and what follows it -/
def exponentSign : List Char → Bool × List Char
  | '-' :: cs => (true, cs)
  | '+' :: cs => (false, cs)
  | cs => (false, cs)

/-- the exponent, if there is a mark for one; `none` where a mark has no digits -/
def exponent? : List Char → Option (Option (Bool × List Char) × List Char)
  | c :: cs =>
    if c = 'e' ∨ c = 'E' then
      let (negative, digits) := exponentSign cs
      if digits.takeWhile Char.isDigit = [] then none
      else some (some (negative, digits.takeWhile Char.isDigit), digits.dropWhile Char.isDigit)
    else some (none, c :: cs)
  | [] => some (none, [])

/-- A number without its sign. Nothing stands before the digits, and a leading zero stands alone. -/
def unsigned? (negative : Bool) (cs : List Char) : Option (JsonNumeral × List Char) :=
  let whole := cs.takeWhile Char.isDigit
  if whole = [] ∨ (whole.head? = some '0' ∧ whole.length ≠ 1) then none
  else do
    let (fraction, rest) ← fraction? (cs.dropWhile Char.isDigit)
    let (exponent, rest) ← exponent? rest
    return (⟨negative, whole, fraction, exponent⟩, rest)

/-- a number at the front -/
def number? : List Char → Option (JsonNumeral × List Char)
  | '-' :: cs => unsigned? true cs
  | cs => unsigned? false cs

/-! ## Strings -/

/-- the value of a hexadecimal digit -/
def hexDigit? (c : Char) : Option Nat :=
  if c.isDigit then some (c.toNat - '0'.toNat)
  else if 'a' ≤ c ∧ c ≤ 'f' then some (c.toNat - 'a'.toNat + 10)
  else if 'A' ≤ c ∧ c ≤ 'F' then some (c.toNat - 'A'.toNat + 10)
  else none

/-- the number that four hexadecimal digits write -/
def hex4? (a b c d : Char) : Option Nat := do
  return ((← hexDigit? a) * 16 + (← hexDigit? b)) * 256 + (← hexDigit? c) * 16 + (← hexDigit? d)

/-- the character of a simple escape -/
def simpleEscape? : Char → Option Char
  | '"' => some '"'
  | '\\' => some '\\'
  | '/' => some '/'
  | 'b' => some '\x08'
  | 'f' => some '\x0c'
  | 'n' => some '\n'
  | 'r' => some '\r'
  | 't' => some '\t'
  | _ => none

/-- one unit of a string: a character, or a 16-bit number that an escape gives -/
inductive Piece where
  | char (c : Char)
  | unit (n : Nat)

/-- the units of a string up to its closing quote, and what follows it -/
def pieces? : List Char → Option (List Piece × List Char)
  | [] => none
  | '"' :: cs => some ([], cs)
  | '\\' :: 'u' :: a :: b :: c :: d :: cs => do
    let n ← hex4? a b c d
    let (ps, rest) ← pieces? cs
    return (.unit n :: ps, rest)
  | '\\' :: e :: cs => do
    let c ← simpleEscape? e
    let (ps, rest) ← pieces? cs
    return (.char c :: ps, rest)
  | c :: cs =>
    if c.toNat < 0x20 ∨ c = '\\' then none
    else do
      let (ps, rest) ← pieces? cs
      return (.char c :: ps, rest)

/-- The text of the units. A unit of the upper half of a pair must be followed by one of the lower half. -/
def pieceText? : List Piece → Option (List Char)
  | [] => some []
  | .char c :: ps => (pieceText? ps).map (c :: ·)
  | .unit n :: ps =>
    if 0xDC00 ≤ n ∧ n < 0xE000 then none
    else if 0xD800 ≤ n ∧ n < 0xDC00 then
      match ps with
      | .unit m :: rest =>
        if 0xDC00 ≤ m ∧ m < 0xE000 then
          (pieceText? rest).map (Char.ofNat (0x10000 + (n - 0xD800) * 0x400 + (m - 0xDC00)) :: ·)
        else none
      | _ => none
    else (pieceText? ps).map (Char.ofNat n :: ·)

/-- a string after its opening quote -/
def string? (cs : List Char) : Option (Option String × List Char) :=
  (pieces? cs).map fun p => ((pieceText? p.1).map String.ofList, p.2)

/-! ## Documents -/

/-- what follows, if it is shorter than what was there -/
def shorter? (cs rest : List Char) : Option (After cs) :=
  if h : rest.length < cs.length then some ⟨rest, h⟩ else none

/-- a part with what follows it -/
def within (cs : List Char) {α : Type} (r : Option (α × List Char)) : Option (α × After cs) := do
  let (a, rest) ← r
  return (a, ← shorter? cs rest)

/-- a given word at the front -/
def word? (cs word : List Char) (d : JsonSyntax) : Option (JsonSyntax × After cs) :=
  if word.isPrefixOf cs then within cs (some (d, cs.drop word.length)) else none

/-- the key of a member at the front -/
def key? (cs : List Char) : Option (Option String × After cs) :=
  match cs with
  | '"' :: r => within ('"' :: r) (string? r)
  | _ => none

mutual

/-- a document at the front, which is not blank -/
def value? (cs : List Char) : Option (JsonSyntax × After cs) :=
  match cs with
  | '"' :: r => (within ('"' :: r) (string? r)).map fun p => (.string p.1, p.2)
  | '[' :: r =>
    match _hs : skip r with
    | ']' :: rest => within ('[' :: r) (some (.array [], rest))
    | rest => do
      let (items, after) ← items? rest
      within ('[' :: r) (some (.array items, after.1))
  | '\x7b' :: r =>
    match _hs : skip r with
    | '\x7d' :: rest => within ('\x7b' :: r) (some (.object [], rest))
    | rest => do
      let (members, after) ← members? rest
      within ('\x7b' :: r) (some (.object members, after.1))
  | 'n' :: r => word? ('n' :: r) ['n', 'u', 'l', 'l'] .null
  | 't' :: r => word? ('t' :: r) ['t', 'r', 'u', 'e'] (.bool true)
  | 'f' :: r => word? ('f' :: r) ['f', 'a', 'l', 's', 'e'] (.bool false)
  | r => (within r (number? r)).map fun p => (.number p.1, p.2)
termination_by (cs.length, 0)
decreasing_by
  all_goals
    have := skip_length r
    simp only [_hs] at this
    apply Prod.Lex.left
    simp only [List.length_cons]
    omega

/-- the items of an array up to its closing bracket -/
def items? (cs : List Char) : Option (List JsonSyntax × After cs) := do
  let (d, after) ← value? cs
  match _hs : skip after.1 with
  | ']' :: rest => within cs (some ([d], rest))
  | ',' :: rest => do
    let (ds, last) ← items? (skip rest)
    within cs (some (d :: ds, last.1))
  | _ => none
termination_by (cs.length, 1)
decreasing_by
  · exact Prod.Lex.right _ Nat.zero_lt_one
  · have := after.2
    have h2 := skip_length after.1
    have := skip_length rest
    simp only [_hs, List.length_cons] at h2
    apply Prod.Lex.left
    omega

/-- the members of an object up to its closing brace -/
def members? (cs : List Char) : Option (List (Option String × JsonSyntax) × After cs) := do
  let (key, afterKey) ← key? cs
  match _hk : skip afterKey.1 with
  | ':' :: rest => do
    let (d, after) ← value? (skip rest)
    match _hs : skip after.1 with
    | '\x7d' :: last => within cs (some ([(key, d)], last))
    | ',' :: more => do
      let (ds, last) ← members? (skip more)
      within cs (some ((key, d) :: ds, last.1))
    | _ => none
  | _ => none
termination_by (cs.length, 1)
decreasing_by
  · have := afterKey.2
    have h2 := skip_length afterKey.1
    have := skip_length rest
    simp only [_hk, List.length_cons] at h2
    apply Prod.Lex.left
    omega
  · have := afterKey.2
    have h2 := skip_length afterKey.1
    have := skip_length rest
    have := after.2
    have h5 := skip_length after.1
    have := skip_length more
    simp only [_hk, _hs, List.length_cons] at h2 h5
    apply Prod.Lex.left
    omega

end

/-- the document that the whole text writes -/
def read? (source : String) : Option JsonSyntax := do
  let (d, after) ← value? (skip source.toList)
  if skip after.1 = [] then some d else none

end JsonSyntax

end CurveScript
