/-
Scripts of one statement.

Words with a space between any two of them are read word by word: no word holds a space, so each is the longest at its
place. Tokens without a separator are one statement, which is the whole run: the run has one step, and the table and the
next identity after it are those after the statement.

Results:
- `Spells.tokenize`, `tokenize_word`: the tokens of words with spaces between them, and of one word.
- `run_piece`: a run of one statement is the judgement on it.
- `judge_expression`: the judgement on an expression is its value.
-/
import CurveScript.Proofs.LineByLine
import CurveScript.Proofs.Munching
import CurveScript.Proofs.Sentences

namespace CurveScript.OneStatement

open CurveScript.Blanks CurveScript.Words CurveScript.Munching CurveScript.RunFold CurveScript.Grammar
  CurveScript.Sentences

/-! ## Words with spaces between them -/

/-- the text of words, each after a space -/
def spaced (ws : List (List Char)) : List Char := ws.flatMap fun w => ' ' :: w

/-- The tokens of words, the first of which starts at the byte `pos`, after an operand or not. Between any two words
there is one space. -/
inductive Spells : Bool → Nat → List (List Char) → List Token → Prop where
  | nil (after : Bool) (pos : Nat) : Spells after pos [] []
  | cons {after : Bool} {pos : Nat} {kind : LexemeKind} {w : List Char} {ws : List (List Char)} {t : Token}
      {ts : List Token} (hw : Word after kind w) (hblank : ¬ StartsBlank w) (ht : Token.ofLexeme ⟨kind, w, pos⟩ = .ok t)
      (h : Spells t.kind.endsOperand (pos + byteLength w + 1) ws ts) : Spells after pos (w :: ws) (t :: ts)

/-- A word is the longest in its own text. -/
theorem longest_self {after : Bool} {kind : LexemeKind} {w : List Char} (h : Word after kind w) :
    Longest after (w ++ []) kind w :=
  ⟨h, List.prefix_append w [], fun _ _ _ hstarts => by simpa using hstarts.length_le⟩

/-- A space before a text is blank. -/
theorem splits_space {after : Bool} {pos : Nat} {cs : List Char} {ts : List Token} (h : Splits after (pos + 1) cs ts) :
    Splits after pos (' ' :: cs) ts := by
  cases h with
  | done hb => exact .done (.cons (.space _) hb)
  | @token _ _ b w rest kind t ts hb hblank hw ht hrest =>
    have hstart : pos + 1 + byteLength b = pos + byteLength (' ' :: b) := by
      have hsize : byteLength (' ' :: b) = 1 + byteLength b := rfl
      omega
    rw [hstart] at ht hrest
    exact .token (b := ' ' :: b) (.cons (.space _) hb) hblank hw ht hrest

/-- Before a space a word is one of the words that the text splits into. -/
theorem splits_word {after : Bool} {pos : Nat} {kind : LexemeKind} {w g : List Char} {t : Token} {ts : List Token}
    (hw : Word after kind w) (hblank : ¬ StartsBlank w) (ht : Token.ofLexeme ⟨kind, w, pos⟩ = .ok t)
    (hg : g = [] ∨ ∃ g', g = ' ' :: g') (h : Splits t.kind.endsOperand (pos + byteLength w) g ts) :
    Splits after pos (w ++ g) (t :: ts) := by
  have hkind := (LineBreaks.kind_of_ofLexeme ht).1
  have hself := longest_self hw
  have hnone : ¬ StartsBlank (w ++ []) := by rwa [List.append_nil]
  rcases hg with rfl | ⟨g', rfl⟩
  · exact .ofLexeme (.nil _) hnone hself ht h
  · exact .ofLexeme (.nil _) (not_startsBlank_extend hself hkind hnone g') (hself.extend g') ht h

theorem Spells.splits {after : Bool} {pos : Nat} {w : List Char} {ws : List (List Char)} {ts : List Token}
    (h : Spells after pos (w :: ws) ts) : Splits after pos (w ++ spaced ws) ts := by
  induction ws generalizing after pos w ts with
  | nil =>
    cases h with
    | cons hw hblank ht h =>
      cases h
      exact splits_word hw hblank ht (Or.inl rfl) (.done (.nil _))
  | cons w' ws ih =>
    cases h with
    | cons hw hblank ht h => exact splits_word hw hblank ht (Or.inr ⟨_, rfl⟩) (splits_space (ih h))

/-- **Words with spaces between them** are the words of the text. -/
theorem Spells.tokenize {w : List Char} {ws : List (List Char)} {ts : List Token} (h : Spells false 0 (w :: ws) ts) :
    Token.tokenize (String.ofList (w ++ spaced ws)) = .ok ts := by
  rw [Token.tokenize, String.toList_ofList]
  exact h.splits.tokens

/-- **A text of one word** has one token. -/
theorem tokenize_word {kind : LexemeKind} {w : List Char} {t : Token} (hw : Word false kind w)
    (hblank : ¬ StartsBlank w) (ht : Token.ofLexeme ⟨kind, w, 0⟩ = .ok t) :
    Token.tokenize (String.ofList w) = .ok [t] := by
  have hspells : Spells false 0 [w] [t] := .cons hw hblank ht (.nil _ _)
  have htokens := hspells.tokenize
  rwa [spaced, List.flatMap_nil, List.append_nil] at htokens

/-! ## One statement -/

/-- A phrase of a single part is an expression. -/
theorem called_whole {tr : Bool} {n : Nat} {ts : List Token} {x : Expr} (h : Phrase .called tr n ts x) :
    Phrase (.chain .comparison) tr n ts x := (Phrase.unsigned (.base h)).ofOperand _

section Run

variable (e : Engine) (table : Bindings Value) {source : String} {ts : List Token}

/-- **A run of one statement** is the judgement on it. -/
theorem run_piece (h : Token.tokenize source = .ok ts) (hne : ts ≠ []) (hts : ∀ t ∈ ts, t.isSeparator = false) :
    e.run source table = .ok ([⟨1, (judge e.registry table e.nextId ⟨ts, none⟩).verdict⟩],
      (judge e.registry table e.nextId ⟨ts, none⟩).table,
      { e with nextId := (judge e.registry table e.nextId ⟨ts, none⟩).nextId }) := by
  have hstep := LineByLine.step?_last e.registry e.config.errorPolicy (r := .start ts table e.nextId) rfl hne hts
  rw [LineByLine.run_eq e table h, LineByLine.toEnd_some e.registry e.config.errorPolicy hstep,
    LineByLine.toEnd_nil e.registry e.config.errorPolicy rfl]
  rfl

/-- **The judgement on an expression** is its value, and the table stays as it is. -/
theorem judge_expression (registry : Registry) (id : Nat) {tr : Bool} {n : Nat} {x : Expr}
    (h : Phrase (.chain .comparison) tr n ts x) (hn : n ≤ maxDepth) (hx : x.height ≤ maxDepth) :
    judge registry table id ⟨ts, none⟩ =
      match valueOf registry table id x with
      | .ok (v, id') => ⟨.evaluated (extent (segmentStop ts none) ts) (.ok v), table, id'⟩
      | .error f => ⟨.evaluated (extent (segmentStop ts none) ts) (.error f), table, id⟩ := by
  have hkept : Kept n (.evaluate x) := kept_of_height_le hn (by simpa [tree?] using hx)
  have hparse := (parse_complete (.evaluate h) (segmentStop ts none)).1 hkept
  rw [judge]
  simp only [Piece.stop, hparse, execute_evaluate]
  cases valueOf registry table id x <;> rfl

end Run

end CurveScript.OneStatement
