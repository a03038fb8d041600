/-
White space of the Unicode standard (the property `White_Space`), and text without it at either end.
-/

namespace CurveScript.Text

/-- Whether the character has the property `White_Space`. -/
def isBlank (c : Char) : Bool :=
  let n := c.toNat
  (0x9 ≤ n && n ≤ 0xd) || n == 0x20 || n == 0x85 || n == 0xa0 || n == 0x1680 || (0x2000 ≤ n && n ≤ 0x200a)
    || n == 0x2028 || n == 0x2029 || n == 0x202f || n == 0x205f || n == 0x3000

/-- the text without blank characters at its ends -/
def trimmed (s : String) : String :=
  String.ofList ((s.toList.dropWhile isBlank).reverse.dropWhile isBlank).reverse

/-- The text with the letters A to Z lowered. That is enough to compare a text with words of plain letters that have no
k: outside ASCII only the Kelvin sign lowers to a plain letter alone, which is k. -/
def lowered (s : String) : String := s.map Char.toLower

end CurveScript.Text
