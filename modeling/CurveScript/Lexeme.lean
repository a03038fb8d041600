/-
Cutting the source text into lexemes.

Between lexemes stands blank text: spaces, tabs, a backslash that continues its line, block comments and line
comments. A lexeme is the longest piece of its class at its place. Every text can be cut: characters that start no
lexeme, comments that are not closed and numbers whose exponent has no digits become lexemes of their own, which
`Token.ofLexemes` refuses. Main statements: `splitBlank_append` and `Cut.text_append` (nothing is lost), and
`Cut.text_ne_nil`, by which cutting comes to an end.
-/
import CurveScript.Span
import CurveScript.Symbol

namespace CurveScript

/-! ## Blank text -/

/-- a line break at the front, and what follows it; a carriage return takes its line feed along -/
def lineBreak? : List Char → Option (List Char × List Char)
  | '\r' :: '\n' :: r => some (['\r', '\n'], r)
  | '\n' :: r => some (['\n'], r)
  | '\r' :: r => some (['\r'], r)
  | _ => none

/-- whether a line goes on with this character -/
def inLine (c : Char) : Bool := c != '\n' && c != '\r'

/-- the text up to and including the first end mark of a block comment, and what follows it -/
def commentBody? : List Char → Option (List Char × List Char)
  | [] => none
  | '*' :: '/' :: r => some (['*', '/'], r)
  | c :: r => (commentBody? r).map fun p => (c :: p.1, p.2)

/-- the piece of blank text at the front, and what follows it -/
def blank? : List Char → Option (List Char × List Char)
  | ' ' :: r => some ([' '], r)
  | '\t' :: r => some (['\t'], r)
  | '\\' :: r => (lineBreak? r).map fun p => ('\\' :: p.1, p.2)
  | '#' :: r => some ('#' :: r.takeWhile inLine, r.dropWhile inLine)
  | '/' :: '/' :: r => some ('/' :: '/' :: r.takeWhile inLine, r.dropWhile inLine)
  | '/' :: '*' :: r => (commentBody? r).map fun p => ('/' :: '*' :: p.1, p.2)
  | _ => none

theorem lineBreak?_append {cs b r : List Char} (h : lineBreak? cs = some (b, r)) : b ++ r = cs ∧ b ≠ [] := by
  unfold lineBreak? at h
  split at h <;> simp_all <;> obtain ⟨rfl, rfl⟩ := h <;> simp

theorem commentBody?_append {cs b r : List Char} (h : commentBody? cs = some (b, r)) : b ++ r = cs := by
  fun_induction commentBody? cs generalizing b r with
  | case1 => simp at h
  | case2 t => simp only [Option.some.injEq, Prod.mk.injEq] at h; obtain ⟨rfl, rfl⟩ := h; rfl
  | case3 c t _ ih =>
    obtain ⟨p, hp, he⟩ := Option.map_eq_some_iff.1 h
    simp only [Prod.mk.injEq] at he
    obtain ⟨rfl, rfl⟩ := he
    simp [ih hp]

/-- A blank piece stands at the front and is not empty. -/
theorem blank?_append {cs b r : List Char} (h : blank? cs = some (b, r)) : b ++ r = cs ∧ b ≠ [] := by
  unfold blank? at h
  split at h
  case h_3 t =>
    obtain ⟨p, hp, he⟩ := Option.map_eq_some_iff.1 h
    simp only [Prod.mk.injEq] at he
    obtain ⟨rfl, rfl⟩ := he
    simp [(lineBreak?_append hp).1]
  case h_6 t =>
    obtain ⟨p, hp, he⟩ := Option.map_eq_some_iff.1 h
    simp only [Prod.mk.injEq] at he
    obtain ⟨rfl, rfl⟩ := he
    simp [commentBody?_append hp]
  case h_7 => simp at h
  all_goals
    simp only [Option.some.injEq, Prod.mk.injEq] at h
    obtain ⟨rfl, rfl⟩ := h
    simp [List.takeWhile_append_dropWhile]

/-- all blank text at the front, and what follows it -/
def splitBlank (cs : List Char) : List Char × List Char :=
  match _h : blank? cs with
  | none => ([], cs)
  | some (b, r) =>
    let rest := splitBlank r
    (b ++ rest.1, rest.2)
termination_by cs.length
decreasing_by
  obtain ⟨he, hb⟩ := blank?_append _h
  have := congrArg List.length he
  have := List.length_pos_iff.2 hb
  simp only [List.length_append] at *
  omega

/-- Skipping blank text loses nothing. -/
theorem splitBlank_append (cs : List Char) : (splitBlank cs).1 ++ (splitBlank cs).2 = cs := by
  fun_induction splitBlank cs with
  | case1 => rfl
  | case2 cs b r h rest ih => simp only [List.append_assoc, rest, ih, (blank?_append h).1]

/-! ## Lexemes -/

/-- the classes of lexemes -/
inductive LexemeKind where
  | number
  | malformedNumber
  | name
  | symbol (s : Symbol)
  | leftParen
  | rightParen
  | comma
  | newline
  | semicolon
  | openComment
  | unknown
  deriving DecidableEq

/-- a lexeme cut from the front of a text, and what follows it -/
structure Cut where
  kind : LexemeKind
  text : List Char
  rest : List Char

/-- whether the character starts a name -/
def startsName (c : Char) : Bool := c.isAlpha || c == '_'

/-- whether a name goes on with this character -/
def inName (c : Char) : Bool := c.isAlphanum || c == '_'

/-- the digits of a number with their point, and what follows them: at least one digit, on either side of the point -/
def mantissa? : List Char → Option (List Char × List Char)
  | '.' :: r =>
    if r.takeWhile Char.isDigit = [] then none
    else some ('.' :: r.takeWhile Char.isDigit, r.dropWhile Char.isDigit)
  | cs =>
    if cs.takeWhile Char.isDigit = [] then none
    else match cs.dropWhile Char.isDigit with
      | '.' :: r => some (cs.takeWhile Char.isDigit ++ '.' :: r.takeWhile Char.isDigit, r.dropWhile Char.isDigit)
      | r => some (cs.takeWhile Char.isDigit, r)

/-- the sign of an exponent, if it has one, and what follows it -/
def exponentSign : List Char → List Char × List Char
  | '+' :: r => (['+'], r)
  | '-' :: r => (['-'], r)
  | r => ([], r)

/-- The number that goes on after its mantissa. An exponent mark asks for digits after it and its sign. -/
def cutNumber (mantissa : List Char) : List Char → Cut
  | mark :: r =>
    if mark = 'e' ∨ mark = 'E' then
      let sign := (exponentSign r).1
      let after := (exponentSign r).2
      if after.takeWhile Char.isDigit = [] then ⟨.malformedNumber, mantissa ++ mark :: sign, after⟩
      else ⟨.number, mantissa ++ mark :: (sign ++ after.takeWhile Char.isDigit), after.dropWhile Char.isDigit⟩
    else ⟨.number, mantissa, mark :: r⟩
  | [] => ⟨.number, mantissa, []⟩

/-- the lexeme at the front of a text that starts with `c` and is not blank there -/
def cut (c : Char) (cs : List Char) : Cut :=
  if c = '/' ∧ cs.head? = some '*' then ⟨.openComment, c :: cs, []⟩
  else match mantissa? (c :: cs) with
    | some (m, r) => cutNumber m r
    | none =>
      if startsName c then ⟨.name, c :: cs.takeWhile inName, cs.dropWhile inName⟩
      else match Symbol.read? (c :: cs) with
        | some (s, r) => ⟨.symbol s, s.chars, r⟩
        | none =>
          match c with
          | '(' => ⟨.leftParen, [c], cs⟩
          | ')' => ⟨.rightParen, [c], cs⟩
          | ',' => ⟨.comma, [c], cs⟩
          | ';' => ⟨.semicolon, [c], cs⟩
          | _ =>
            match lineBreak? (c :: cs) with
            | some (b, r) => ⟨.newline, b, r⟩
            | none => ⟨.unknown, [c], cs⟩

theorem mantissa?_append {cs m r : List Char} (h : mantissa? cs = some (m, r)) : m ++ r = cs ∧ m ≠ [] := by
  unfold mantissa? at h
  split at h
  · split at h
    · simp at h
    · simp only [Option.some.injEq, Prod.mk.injEq] at h
      obtain ⟨rfl, rfl⟩ := h
      simp [List.takeWhile_append_dropWhile]
  · split at h
    · simp at h
    · next hd =>
      split at h <;> simp only [Option.some.injEq, Prod.mk.injEq] at h <;> obtain ⟨rfl, rfl⟩ := h
      · next t ht =>
        refine ⟨?_, by simp⟩
        rw [List.append_assoc, List.cons_append, List.takeWhile_append_dropWhile, ← ht,
          List.takeWhile_append_dropWhile]
      · exact ⟨List.takeWhile_append_dropWhile, hd⟩

theorem exponentSign_append (cs : List Char) : (exponentSign cs).1 ++ (exponentSign cs).2 = cs := by
  unfold exponentSign
  split <;> rfl

theorem cutNumber_append (m r : List Char) : (cutNumber m r).text ++ (cutNumber m r).rest = m ++ r := by
  unfold cutNumber
  split
  · next mark t =>
    split
    · have hs := exponentSign_append t
      dsimp only
      split
      · simp [hs]
      · simp [List.takeWhile_append_dropWhile, hs]
    · rfl
  · rfl

theorem cutNumber_ne_nil {m : List Char} (r : List Char) (h : m ≠ []) : (cutNumber m r).text ≠ [] := by
  unfold cutNumber
  split
  · split
    · dsimp only
      split <;> simp
    · exact h
  · exact h

theorem Symbol.chars_ne_nil (s : Symbol) : s.chars ≠ [] := by cases s <;> simp [Symbol.chars]

/-- A lexeme stands at the front of the text that it is cut from. -/
theorem Cut.text_append (c : Char) (cs : List Char) : (cut c cs).text ++ (cut c cs).rest = c :: cs := by
  unfold cut
  split
  · simp
  · split
    · next m r hm => rw [cutNumber_append]; exact (mantissa?_append hm).1
    · split
      · simp [List.takeWhile_append_dropWhile]
      · split
        · next s r hs => exact Symbol.chars_append_of_read? hs
        · split
          all_goals try rfl
          split
          · next b r hb => exact (lineBreak?_append hb).1
          · rfl

/-- No lexeme is empty. -/
theorem Cut.text_ne_nil (c : Char) (cs : List Char) : (cut c cs).text ≠ [] := by
  unfold cut
  split
  · simp
  · split
    · next m r hm => exact cutNumber_ne_nil r (mantissa?_append hm).2
    · split
      · simp
      · split
        · next s r _ => exact s.chars_ne_nil
        · split
          all_goals try simp
          split
          · next b r hb => exact (lineBreak?_append hb).2
          · simp

/-- a lexeme in its place -/
structure Lexeme where
  kind : LexemeKind
  text : List Char
  start : Nat
  deriving DecidableEq

namespace Lexeme

/-- where the lexeme ends -/
def stop (l : Lexeme) : Nat := l.start + byteLength l.text

/-- the bytes that the lexeme covers -/
def span (l : Lexeme) : Span := ⟨l.start, l.stop⟩

/-- the lexemes of a text that starts at the byte `pos` -/
def split (pos : Nat) (cs : List Char) : List Lexeme :=
  match _h : splitBlank cs with
  | (_, []) => []
  | (b, c :: r) =>
    let piece := cut c r
    let lexeme : Lexeme := ⟨piece.kind, piece.text, pos + byteLength b⟩
    lexeme :: split lexeme.stop piece.rest
termination_by cs.length
decreasing_by
  have hb := congrArg List.length (splitBlank_append cs)
  have ht := congrArg List.length (Cut.text_append c r)
  have hn := List.length_pos_iff.2 (Cut.text_ne_nil c r)
  simp only [_h, List.length_append, List.length_cons] at hb ht ⊢
  omega

end Lexeme

end CurveScript
