/-
Printed numbers read back.

The text of a number is one word, with its sign. It makes one token, a literal of the number's own kind, and the script
that it is has that literal as its only statement. Running it changes nothing and gives the number back: no digit of a
float is lost, and a zero keeps its sign.

Results:
- `tokenize_number`: the text of a number has one token, its literal.
- `run_literal`: a script of one literal gives its value.
- `printed_reads_back`: the theorem.
Witness: `negativeZero_reads_back`.
-/
import CurveScript.Proofs.Numbers
import CurveScript.Proofs.Numerals
import CurveScript.Proofs.OneStatement

namespace CurveScript.ReadBack

open CurveScript.Blanks CurveScript.Words CurveScript.Munching CurveScript.RunFold CurveScript.Grammar
  CurveScript.Numerals CurveScript.OneStatement

/-! ## Literals -/

/-- the value of a literal -/
def valueOf : Literal → Value
  | .integer n => .integer n
  | .float x => .float x

/-- the expression that a literal is -/
def literalExpr (span : Span) : Literal → Expr
  | .integer n => .integer span n
  | .float x => .float span x

theorem literal_phrase {t : Token} {l : Literal} (ht : t.kind = .number l) :
    Phrase .primary false 0 [t] (literalExpr t.span l) := by
  cases l with
  | integer n => exact .integer ht
  | float x => exact .float ht

theorem evaluate_literal (invoke : Invoke) (s : Scope) (span : Span) (l : Literal) (id : Nat) :
    evaluate invoke s (literalExpr span l) id = .ok (valueOf l, id) := by
  cases l <;> rfl

/-! ## Texts of numbers -/

/-- Numbers start with none of the marks of blank text. -/
theorem number_not_startsBlank {w : List Char} (h : Word false .number w) : ¬ StartsBlank w := by
  have hhead : ∃ c r, w = c :: r ∧ (c.isDigit = true ∨ c = '.' ∨ c = '+' ∨ c = '-') := by
    have hne := h.ne_nil
    cases h with
    | @number s n hs hn =>
      cases hs with
      | plus => exact ⟨'+', n, rfl, by simp⟩
      | minus => exact ⟨'-', n, rfl, by simp⟩
      | none =>
        rw [List.nil_append] at hne ⊢
        obtain ⟨c, r, rfl⟩ := List.exists_cons_of_ne_nil hne
        exact ⟨c, r, rfl, (head_of_number (.inl hn)).imp id Or.inl⟩
  obtain ⟨c, r, rfl, hc⟩ := hhead
  apply not_startsBlank_of_ne
  refine ⟨?_, ?_, ?_, ?_, ?_⟩ <;> rintro rfl <;> exact absurd hc (by decide)

/-- The text of a number is one word, which is read as the literal of the number. -/
theorem number_literal {v : Value} (h : Numbers.Number v) :
    ∃ l, valueOf l = v ∧ Word false .number v.text.toList ∧ ∀ span, Literal.read v.text.toList span = .ok l := by
  cases h with
  | integer n =>
    have htext : (Value.integer n).text.toList = Integer.chars n := String.toList_ofList
    rw [htext]
    exact ⟨.integer n, rfl, (integer_word n).1, literal_integer n⟩
  | @float x hx =>
    have htext : (Value.float x).text.toList = Double.valueLayout.chars x := String.toList_ofList
    rw [htext]
    exact ⟨.float x, rfl, (chars_word rfl hx).1, literal_float hx⟩

/-- The word of a literal makes the literal's token. -/
theorem ofLexeme_number {w : List Char} {l : Literal} (h : ∀ span, Literal.read w span = .ok l) (pos : Nat) :
    Token.ofLexeme ⟨.number, w, pos⟩ = .ok ⟨.number l, ⟨pos, pos + byteLength w⟩⟩ := by
  rw [Token.ofLexeme]
  simp only [h]
  rfl

/-- **A number's text has one token.** -/
theorem tokenize_number {v : Value} (h : Numbers.Number v) :
    ∃ l span, valueOf l = v ∧ Token.tokenize v.text = .ok [⟨.number l, span⟩] := by
  obtain ⟨l, hl, hw, hread⟩ := number_literal h
  have htokens := tokenize_word hw (number_not_startsBlank hw) (ofLexeme_number hread 0)
  rw [String.ofList_toList] at htokens
  exact ⟨l, _, hl, htokens⟩

/-- **A script of one literal** gives its value and changes nothing. -/
theorem run_literal (e : Engine) (table : Bindings Value) {source : String} {l : Literal} {span : Span}
    (h : Token.tokenize source = .ok [⟨.number l, span⟩]) :
    ∃ step, e.run source table = .ok ([step], table, e) ∧ step.output = .ok (valueOf l) := by
  have hrun := run_piece e table h (by simp) (by simp [Token.isSeparator, TokenKind.isSeparator])
  have hphrase : Phrase (.chain .comparison) false 0 [⟨.number l, span⟩] (literalExpr span l) :=
    called_whole (.uncalled (literal_phrase rfl))
  have hheight : (literalExpr span l).height ≤ maxDepth := by
    cases l <;> exact Nat.le_of_ble_eq_true rfl
  have hvalue : RunFold.valueOf e.registry table e.nextId (literalExpr span l) = .ok (valueOf l, e.nextId) :=
    evaluate_literal _ _ _ _ _
  rw [judge_expression table e.registry e.nextId hphrase (Nat.zero_le _) hheight, hvalue] at hrun
  exact ⟨_, hrun, rfl⟩

/-! ## Main result -/

/-- **Printed numbers read back.** For every engine and every table, the text of an integer, and that of a finite float,
run as a script has exactly one step. Its output is the same number of the same kind, bit for bit, and neither the table
nor the engine changes. -/
theorem printed_reads_back (e : Engine) (table : Bindings Value) :
    (∀ n : Int64, ∃ step, e.run (Value.integer n).text table = .ok ([step], table, e) ∧
      step.output = .ok (.integer n)) ∧
    (∀ x : Float, x.isFinite = true → ∃ step, e.run (Value.float x).text table = .ok ([step], table, e) ∧
      step.output = .ok (.float x)) := by
  have hnumber : ∀ v, Numbers.Number v → ∃ step, e.run v.text table = .ok ([step], table, e) ∧ step.output = .ok v := by
    intro v hv
    obtain ⟨l, span, rfl, htokens⟩ := tokenize_number hv
    exact run_literal e table htokens
  constructor
  · intro n
    exact hnumber _ (.integer n)
  · intro x hx
    exact hnumber _ (.float hx)

/-- The negative zero keeps its sign. -/
theorem negativeZero_reads_back :
    (-0.0 : Float).isFinite = true ∧ (Value.float (-0.0)).text = "-0.0" ∧
      ∃ step, LineByLine.bareEngine.run (Value.float (-0.0)).text .empty = .ok ([step], .empty, LineByLine.bareEngine) ∧
        step.output = .ok (.float (-0.0)) := by
  have hfinite : (-0.0 : Float).isFinite = true := rfl
  exact ⟨hfinite, by decide +kernel, (printed_reads_back LineByLine.bareEngine .empty).2 _ hfinite⟩

end CurveScript.ReadBack
