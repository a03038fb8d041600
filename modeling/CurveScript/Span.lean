/-
Source positions.

A span is a byte range of the source text (UTF-8). `Span.lineColumn` turns its start into the line and column a reader
sees: lines and columns count from 1, columns count characters, and a line ends at a line feed, a carriage return, or
a carriage return with its line feed.
-/

namespace CurveScript

/-- a byte range of the source text -/
structure Span where
  start : Nat
  stop : Nat
  deriving DecidableEq

namespace Span

/-- the empty span at one position -/
def point (pos : Nat) : Span := ⟨pos, pos⟩

/-- the smallest span that covers both -/
def cover (a b : Span) : Span := ⟨min a.start b.start, max a.stop b.stop⟩

/-- the number of bytes covered -/
def length (s : Span) : Nat := s.stop - s.start

/-- whether no byte is covered -/
def isEmpty (s : Span) : Bool := s.length == 0

/-- the span as messages write it -/
def text (s : Span) : String := toString s.start ++ ".." ++ toString s.stop

end Span

/-- the number of bytes that the characters take in UTF-8 -/
def byteLength : List Char → Nat
  | [] => 0
  | c :: cs => c.utf8Size + byteLength cs

@[simp] theorem byteLength_append (a b : List Char) : byteLength (a ++ b) = byteLength a + byteLength b := by
  induction a with
  | nil => simp [byteLength]
  | cons c cs ih => simp [byteLength, ih, Nat.add_assoc]

theorem byteLength_pos {cs : List Char} (h : cs ≠ []) : 0 < byteLength cs := by
  cases cs with
  | nil => exact absurd rfl h
  | cons c cs => have := c.utf8Size_pos; simp only [byteLength]; omega

/-- The longest run of leading characters that fits into `offset` bytes: the text before that offset, with an offset
past the end or inside a character moved back to the nearest boundary. -/
def textBefore : Nat → List Char → List Char
  | _, [] => []
  | offset, c :: cs => if c.utf8Size ≤ offset then c :: textBefore (offset - c.utf8Size) cs else []

/-- line and column after reading the characters, starting from the given line and column -/
def advancePosition (line column : Nat) : List Char → Nat × Nat
  | [] => (line, column)
  | '\r' :: '\n' :: cs => advancePosition (line + 1) 1 cs
  | '\r' :: cs => advancePosition (line + 1) 1 cs
  | '\n' :: cs => advancePosition (line + 1) 1 cs
  | _ :: cs => advancePosition line (column + 1) cs

/-- 1-based line and column of the span's start -/
def Span.lineColumn (s : Span) (source : String) : Nat × Nat :=
  advancePosition 1 1 (textBefore s.start source.toList)

end CurveScript
