/-
Tokens of a script.

`Token.ofLexemes` reads the lexemes of a text one after the other and stops at the first that is no token. A sign that
touches the digits after it belongs to the number when no operand stands before it, so that `-2` is a literal at the
start of an expression while `x -2` subtracts. A number with a point or an exponent is a float, any other an integer.
-/
import CurveScript.Double.Layout
import CurveScript.Double.Reader
import CurveScript.Integer
import CurveScript.Lexeme
import CurveScript.Text.Quoted

namespace CurveScript

/-- number literals -/
inductive Literal where
  | integer (n : Int64)
  | float (x : Float)

/-- the literal as messages show it -/
def Literal.text : Literal → String
  | integer n => Integer.text n
  | float x => Double.valueText x

/-- the kinds of tokens -/
inductive TokenKind where
  | number (n : Literal)
  | name (s : String)
  | functionKeyword
  | symbol (s : Symbol)
  | leftParen
  | rightParen
  | comma
  | newline
  | semicolon

namespace TokenKind

/-- the token as messages show it -/
def text : TokenKind → String
  | number n => "number " ++ n.text
  | name s => "identifier '" ++ s ++ "'"
  | functionKeyword => "keyword 'fn'"
  | symbol s => "'" ++ s.text ++ "'"
  | leftParen => "'('"
  | rightParen => "')'"
  | comma => "','"
  | newline => "newline"
  | semicolon => "';'"

/-- whether the token ends an operand, so that a sign after it is an operator -/
def endsOperand : TokenKind → Bool
  | number _ | name _ | rightParen => true
  | _ => false

/-- whether the token stands between statements -/
def isSeparator : TokenKind → Bool
  | newline | semicolon => true
  | _ => false

end TokenKind

/-- a token and where it stands -/
structure Token where
  kind : TokenKind
  span : Span

/-! ## Errors -/

/-- what is wrong with a text that has no tokens -/
inductive LexFault where
  | unrecognizedCharacter (c : Char)
  | unterminatedComment
  | malformedNumber (text : String)
  | numberOutOfRange (text : String)
  deriving DecidableEq

/-- the fault as messages put it -/
def LexFault.text : LexFault → String
  | unrecognizedCharacter c => "unrecognized character " ++ Text.quotedChar c
  | unterminatedComment => "unterminated block comment"
  | malformedNumber t => "malformed number literal '" ++ t ++ "'"
  | numberOutOfRange t => "number literal '" ++ t ++ "' is out of range"

/-- the first fault of a text and where it stands -/
structure LexError where
  fault : LexFault
  span : Span
  deriving DecidableEq

/-- the message of a lex error -/
def LexError.message (e : LexError) : String := "lex error at " ++ e.span.text ++ ": " ++ e.fault.text

/-! ## Reading lexemes -/

/-- the whole number that signed digits write -/
def signedValue : List Char → Int
  | '-' :: digits => -(Double.digitsValue digits : Int)
  | '+' :: digits => Double.digitsValue digits
  | digits => Double.digitsValue digits

/-- whether the text of a number writes a float -/
def writesFloat (text : List Char) : Bool := text.any fun c => c == '.' || c == 'e' || c == 'E'

/-- the literal that a number's text writes, if its kind can hold the number -/
def Literal.read (text : List Char) (span : Span) : Except LexError Literal :=
  if writesFloat text then
    match Double.ofChars? text with
    | none => .error ⟨.malformedNumber (String.ofList text), span⟩
    | some x => if x.isFinite then .ok (float x) else .error ⟨.numberOutOfRange (String.ofList text), span⟩
  else
    match Integer.ofInt? (signedValue text) with
    | some n => .ok (integer n)
    | none => .error ⟨.numberOutOfRange (String.ofList text), span⟩

namespace Token

/-- the token of a name: a keyword or an identifier -/
def nameKind (text : List Char) : TokenKind :=
  if text = ['f', 'n'] then .functionKeyword else .name (String.ofList text)

/-- the token that one lexeme makes -/
def ofLexeme (l : Lexeme) : Except LexError Token :=
  match l.kind with
  | .number => (Literal.read l.text l.span).map fun n => ⟨.number n, l.span⟩
  | .malformedNumber => .error ⟨.malformedNumber (String.ofList l.text), l.span⟩
  | .name => .ok ⟨nameKind l.text, l.span⟩
  | .symbol s => .ok ⟨.symbol s, l.span⟩
  | .leftParen => .ok ⟨.leftParen, l.span⟩
  | .rightParen => .ok ⟨.rightParen, l.span⟩
  | .comma => .ok ⟨.comma, l.span⟩
  | .newline => .ok ⟨.newline, l.span⟩
  | .semicolon => .ok ⟨.semicolon, l.span⟩
  | .openComment => .error ⟨.unterminatedComment, l.span⟩
  | .unknown => .error ⟨.unrecognizedCharacter (l.text.headD '\ufffd'), l.span⟩

/-- whether the lexeme can be the sign of a number -/
def isSign (l : Lexeme) : Bool :=
  match l.kind with
  | .symbol s => s.isSign
  | _ => false

/-- whether `sign` is the sign of the number `next`: it touches the digits and no operand stands before it -/
def joins (afterOperand : Bool) (sign next : Lexeme) : Bool :=
  !afterOperand && isSign sign && next.kind == .number && sign.stop == next.start

/-- the number that a sign and its digits make -/
def signed (sign next : Lexeme) : Lexeme := ⟨.number, sign.text ++ next.text, sign.start⟩

/-- the tokens of lexemes that follow an operand or do not -/
def ofLexemes (afterOperand : Bool) : List Lexeme → Except LexError (List Token)
  | [] => .ok []
  | [l] => (ofLexeme l).map fun t => [t]
  | l :: next :: ls =>
    if joins afterOperand l next then
      match ofLexeme (signed l next) with
      | .error e => .error e
      | .ok t => (ofLexemes true ls).map (t :: ·)
    else
      match ofLexeme l with
      | .error e => .error e
      | .ok t => (ofLexemes t.kind.endsOperand (next :: ls)).map (t :: ·)

/-- the tokens of a text, or its first fault -/
def ofChars (cs : List Char) : Except LexError (List Token) := ofLexemes false (Lexeme.split 0 cs)

/-- the tokens of a source text, or its first fault -/
def tokenize (source : String) : Except LexError (List Token) := ofChars source.toList

/-- whether the token stands between statements -/
def isSeparator (t : Token) : Bool := t.kind.isSeparator

end Token

end CurveScript
