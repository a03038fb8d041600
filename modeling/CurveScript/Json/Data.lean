/-
JSON documents as they are written.

The text is compact. Numbers with a fraction use `Double.jsonLayout`; what is infinite or not a number is written as
null. `sorted` puts the members of every object in the order of their keys.
-/
import CurveScript.Double.Layout

namespace CurveScript

/-- a JSON document -/
inductive JsonData where
  | null
  | bool (b : Bool)
  | integer (n : Int)
  | number (x : Float)
  | string (s : String)
  | array (items : List JsonData)
  | object (members : List (String × JsonData))

namespace JsonData

/-- a character between the quotes of a string -/
def escapedChar (c : Char) : List Char :=
  if c = '"' ∨ c = '\\' then ['\\', c]
  else if c = '\x08' then ['\\', 'b']
  else if c = '\t' then ['\\', 't']
  else if c = '\n' then ['\\', 'n']
  else if c = '\x0c' then ['\\', 'f']
  else if c = '\r' then ['\\', 'r']
  else if c.toNat < 0x20 then
    '\\' :: 'u' :: '0' :: '0' :: [Nat.digitChar (c.toNat / 16), Nat.digitChar (c.toNat % 16)]
  else [c]

/-- a string with its quotes -/
def stringText (s : String) : String := String.ofList ('"' :: (s.toList.flatMap escapedChar ++ ['"']))

/-- a double, or null where there is no number to write -/
def numberText (x : Float) : String := if x.isFinite then Double.jsonLayout.text x else "null"

mutual

/-- the compact text of a document -/
def text : JsonData → String
  | null => "null"
  | bool b => if b then "true" else "false"
  | integer n => toString n
  | number x => numberText x
  | string s => stringText s
  | array items => "[" ++ String.intercalate "," (texts items) ++ "]"
  | object members => "\x7b" ++ String.intercalate "," (memberTexts members) ++ "\x7d"

/-- the texts of items -/
def texts : List JsonData → List String
  | [] => []
  | d :: ds => text d :: texts ds

/-- the texts of members -/
def memberTexts : List (String × JsonData) → List String
  | [] => []
  | (k, d) :: ds => (stringText k ++ ":" ++ text d) :: memberTexts ds

end

mutual

/-- the document with the members of every object in the order of their keys -/
def sorted : JsonData → JsonData
  | array items => array (sortedItems items)
  | object members => object ((sortedMembers members).mergeSort fun a b => !(b.1 < a.1))
  | d => d

/-- the items, each sorted -/
def sortedItems : List JsonData → List JsonData
  | [] => []
  | d :: ds => sorted d :: sortedItems ds

/-- the members in their order, each value sorted -/
def sortedMembers : List (String × JsonData) → List (String × JsonData)
  | [] => []
  | (k, d) :: ds => (k, sorted d) :: sortedMembers ds

end

end JsonData

end CurveScript
