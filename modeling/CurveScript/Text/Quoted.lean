/-
Quoted text: how messages show a character or a string so that every character can be told apart.

Tab, line feed, carriage return, NUL and the backslash have short escapes, the quote in use is escaped, and a hidden
character is written as its code point in hexadecimal between braces. Everything else stands for itself.
-/
import CurveScript.Text.Hidden

namespace CurveScript.Text

/-- the escape of a character that is shown by number -/
def byNumber (c : Char) : List Char :=
  '\\' :: 'u' :: Char.ofNat 0x7b :: (Nat.toDigits 16 c.toNat ++ [Char.ofNat 0x7d])

/-- a character as it stands between quotes of the kind `quote` -/
def escaped (quote c : Char) : List Char :=
  if c = '\x00' then ['\\', '0']
  else if c = '\t' then ['\\', 't']
  else if c = '\r' then ['\\', 'r']
  else if c = '\n' then ['\\', 'n']
  else if c = '\\' ∨ c = quote then ['\\', c]
  else if isHidden c then byNumber c
  else [c]

/-- a character in single quotes -/
def quotedChar (c : Char) : String := String.ofList ('\'' :: (escaped '\'' c ++ ['\'']))

/-- a text in double quotes -/
def quoted (s : String) : String := String.ofList ('"' :: (s.toList.flatMap (escaped '"') ++ ['"']))

/-- texts as a bracketed list, separated by a comma and a space -/
def bracketed (items : List String) : String := "[" ++ String.intercalate ", " items ++ "]"

end CurveScript.Text
