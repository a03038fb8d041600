/-
Operator symbols of the source text.

A symbol is the longest one that starts at its place: two characters where two of them form a symbol, else one.
-/
import CurveScript.Operator

namespace CurveScript

/-- the symbols that a script may contain -/
inductive Symbol where
  | plus
  | minus
  | star
  | slash
  | percent
  | caret
  | assign
  | eq
  | ne
  | lt
  | le
  | gt
  | ge
  | arrow
  deriving DecidableEq

namespace Symbol

/-- the characters of a symbol -/
def chars : Symbol → List Char
  | plus => ['+']
  | minus => ['-']
  | star => ['*']
  | slash => ['/']
  | percent => ['%']
  | caret => ['^']
  | assign => ['=']
  | eq => ['=', '=']
  | ne => ['!', '=']
  | lt => ['<']
  | le => ['<', '=']
  | gt => ['>']
  | ge => ['>', '=']
  | arrow => ['=', '>']

/-- the symbol as scripts write it -/
def text (s : Symbol) : String := String.ofList s.chars

/-- the longest symbol at the front of the characters, and what follows it -/
def read? : List Char → Option (Symbol × List Char)
  | '=' :: '=' :: r => some (eq, r)
  | '!' :: '=' :: r => some (ne, r)
  | '<' :: '=' :: r => some (le, r)
  | '>' :: '=' :: r => some (ge, r)
  | '=' :: '>' :: r => some (arrow, r)
  | '+' :: r => some (plus, r)
  | '-' :: r => some (minus, r)
  | '*' :: r => some (star, r)
  | '/' :: r => some (slash, r)
  | '%' :: r => some (percent, r)
  | '^' :: r => some (caret, r)
  | '=' :: r => some (assign, r)
  | '<' :: r => some (lt, r)
  | '>' :: r => some (gt, r)
  | _ => none

/-- A symbol that is read stands at the front. -/
theorem chars_append_of_read? {cs rest : List Char} {s : Symbol} (h : read? cs = some (s, rest)) :
    s.chars ++ rest = cs := by
  unfold read? at h
  split at h <;> simp_all [chars] <;> obtain ⟨rfl, rfl⟩ := h <;> rfl

/-- whether the symbol can be the sign of a number -/
def isSign : Symbol → Bool
  | plus | minus => true
  | _ => false

/-- the comparison that the symbol stands for between two operands -/
def comparison? : Symbol → Option BinaryOperator
  | eq => some .eq
  | ne => some .ne
  | lt => some .lt
  | le => some .le
  | gt => some .gt
  | ge => some .ge
  | _ => none

/-- the sum operator that the symbol stands for between two operands -/
def additive? : Symbol → Option BinaryOperator
  | plus => some .add
  | minus => some .sub
  | _ => none

/-- the product operator that the symbol stands for between two operands -/
def multiplicative? : Symbol → Option BinaryOperator
  | star => some .mul
  | slash => some .div
  | percent => some .rem
  | _ => none

/-- the operator that the symbol stands for before an operand -/
def unary? : Symbol → Option UnaryOperator
  | minus => some .negate
  | plus => some .plus
  | _ => none

end Symbol

end CurveScript
