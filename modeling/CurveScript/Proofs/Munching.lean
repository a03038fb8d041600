/-
Tokens as a split of the text into longest words.

`Splits` says which tokens a text has: blank text, the longest word at its place, again blank text, and so on up to the
end. `Makes` says which token a word is. The words after a number, a name or a closing parenthesis (`closesOperand`) are
read without a sign. `Faulty` says what is wrong with a text at whose front no token starts. None of this is said with
the reader of tokens.

Results:
- `closesOperand_eq`, `ofLexeme_iff`: the reader ends operands where they end, and makes of each word its token.
- `tokens_cons`: the tokens of a text are the first one and those of the text after it.
- `splits_of_tokens`, `Splits.tokens`: a text has the tokens that it splits into, and no others.
- `fault_of_tokens`: a text without tokens splits up to a fault. What is before the fault splits as it did in the whole,
  which is why all conditions are kept where the text ends sooner.
- `tokenize_munches`: both for source texts, with what it means for the spans.
-/
import CurveScript.Proofs.Signs

namespace CurveScript.Munching

open CurveScript.Blanks CurveScript.Words CurveScript.Readers

/-! ## Token by token -/

/-- the tokens of a text that starts at the byte `pos`, after an operand or not -/
def tokens (after : Bool) (pos : Nat) (cs : List Char) : Except LexError (List Token) :=
  Token.ofLexemes after (Lexeme.split pos cs)

section Tokens

variable {after : Bool} {pos : Nat} {c d : Char} {b r cs : List Char}

/-- No blank text starts with a character that is none of the marks of blank text. -/
theorem not_startsBlank_of_ne (h : d ≠ '\\' ∧ d ≠ ' ' ∧ d ≠ '\t' ∧ d ≠ '#' ∧ d ≠ '/') : ¬ StartsBlank (d :: r) := by
  obtain ⟨hback, hspace, htab, hhash, hslash⟩ := h
  rw [← blank?_eq_none]
  exact (LineBreaks.blank?_none_iff hback fun hc => absurd hc hslash).2
    ⟨hspace, htab, hhash, fun hc => absurd hc hslash⟩

/-- Where a number is cut off there is no blank text. -/
theorem splitBlank_number (h : (cut d r).kind = .number ∨ (cut d r).kind = .malformedNumber) :
    splitBlank (d :: r) = ([], d :: r) := by
  have hlongest : Longest true (d :: r) (cut d r).kind (cut d r).text := by
    refine cut_longest ?_ ?_ <;> rcases h with h | h <;> simp [h]
  have hd : d.isDigit = true ∨ d = '.' := by
    obtain ⟨e, t, htext⟩ := List.exists_cons_of_ne_nil (Cut.text_ne_nil d r)
    have happ := Cut.text_append d r
    have hnumber := hlongest.word.number_of_kind h
    rw [htext] at happ hnumber
    cases (List.cons.inj happ).1
    exact head_of_number hnumber
  refine splitBlank_eq.2 ⟨rfl, .nil _, not_startsBlank_of_ne ?_⟩
  refine ⟨?_, ?_, ?_, ?_, ?_⟩ <;> rintro rfl <;> exact absurd hd (by decide)

theorem split_nil (h : splitBlank cs = (b, [])) : Lexeme.split pos cs = [] := by
  rw [Lexeme.split]
  split
  · rfl
  · next h' =>
    rw [h] at h'
    cases h'

theorem split_cons (h : splitBlank cs = (b, c :: r)) :
    Lexeme.split pos cs = ⟨(cut c r).kind, (cut c r).text, pos + byteLength b⟩ ::
      Lexeme.split (pos + byteLength b + byteLength (cut c r).text) (cut c r).rest := by
  rw [Lexeme.split]
  split
  · next h' =>
    rw [h] at h'
    cases h'
  · next h' =>
    rw [h] at h'
    cases h'
    rfl

theorem tokens_nil (h : splitBlank cs = (b, [])) : tokens after pos cs = .ok [] := by
  rw [tokens, split_nil h]
  rfl

/-- A sign joins the number that stands right after it. -/
theorem joins_cut {l next : Lexeme} {ls : List Lexeme} (hl : l = ⟨(cut c r).kind, (cut c r).text, pos⟩)
    (hsplit : Lexeme.split (pos + byteLength (cut c r).text) (cut c r).rest = next :: ls)
    (hjoin : Token.joins after l next = true) :
    after = false ∧ isSign c = true ∧ ∃ d r', r = d :: r' ∧ (cut d r').kind = .number := by
  subst hl
  simp only [Token.joins, Bool.and_eq_true, Bool.not_eq_true', beq_iff_eq] at hjoin
  obtain ⟨⟨⟨hafter, hl⟩, hnext⟩, htouch⟩ := hjoin
  have hs : isSign c = true := by
    cases hkind : (cut c r).kind with
    | symbol s =>
      simp only [Token.isSign, hkind] at hl
      exact isSign_of_cut hkind hl
    | _ => simp [Token.isSign, hkind] at hl
  obtain ⟨s, -, hcut⟩ := cut_sign hs r
  refine ⟨hafter, hs, ?_⟩
  rw [hcut] at hsplit
  cases hblank : splitBlank r with
  | mk b rest =>
    cases rest with
    | nil =>
      rw [split_nil hblank] at hsplit
      cases hsplit
    | cons d r' =>
      rw [split_cons hblank] at hsplit
      cases hsplit
      have hb : b = [] := by
        by_contra hne
        have hpos := byteLength_pos hne
        simp only [Lexeme.stop, hcut] at htouch
        omega
      subst hb
      have happ := (splitBlank_eq.1 hblank).1
      exact ⟨d, r', happ, hnext⟩

/-- **The first token.** The lexemes are joined where `munch` takes a sign and its number. -/
theorem tokens_cons (h : splitBlank cs = (b, c :: r)) :
    tokens after pos cs =
      match Token.ofLexeme ⟨(munch after c r).kind, (munch after c r).text, pos + byteLength b⟩ with
      | .error e => .error e
      | .ok t => (tokens t.kind.endsOperand (pos + byteLength b + byteLength (munch after c r).text)
          (munch after c r).rest).map (t :: ·) := by
  rw [tokens, split_cons h]
  rcases munch_cut_or_signed after c r with hmunch | ⟨rfl, hs, d, r', rfl, hkind, hmunch⟩
  · rw [hmunch]
    cases hsplit : Lexeme.split (pos + byteLength b + byteLength (cut c r).text) (cut c r).rest with
    | nil =>
      rw [Token.ofLexemes]
      cases Token.ofLexeme ⟨(cut c r).kind, (cut c r).text, pos + byteLength b⟩ with
      | error e => rfl
      | ok t => simp only [tokens, hsplit]; rfl
    | cons next ls =>
      have hjoin : ¬ Token.joins after ⟨(cut c r).kind, (cut c r).text, pos + byteLength b⟩ next = true := by
        intro hjoin
        obtain ⟨rfl, hs, d, r', rfl, hkind⟩ := joins_cut rfl hsplit hjoin
        obtain ⟨s, -, hcut⟩ := cut_sign hs (d :: r')
        rw [munch_signed hs hkind, hcut] at hmunch
        cases hmunch
      rw [Token.ofLexemes, if_neg hjoin]
      cases Token.ofLexeme ⟨(cut c r).kind, (cut c r).text, pos + byteLength b⟩ with
      | error e => rfl
      | ok t => exact congrArg (Except.map (List.cons t)) (by rw [tokens, hsplit])
  · obtain ⟨s, hsign, hcut⟩ := cut_sign hs (d :: r')
    rw [hmunch, hcut]
    simp only [split_cons (splitBlank_number (.inl hkind)), byteLength, Nat.add_zero]
    rw [Token.ofLexemes, if_pos]
    · have hstop : pos + byteLength b + (c.utf8Size + byteLength (cut d r').text) =
          pos + byteLength b + c.utf8Size + byteLength (cut d r').text := by omega
      rw [hstop]
      simp only [Token.signed, List.singleton_append]
      cases ht : Token.ofLexeme ⟨.number, c :: (cut d r').text, pos + byteLength b⟩ with
      | error e => rfl
      | ok t =>
        -- a number ends an operand
        obtain ⟨n, -, rfl⟩ := map_eq_ok ht
        rfl
    · simp [Token.joins, Token.isSign, Lexeme.stop, hsign, hkind, byteLength]

end Tokens

/-! ## Splitting -/

/-- whether an operand ends with the token: a number, a name or a closing parenthesis -/
def closesOperand : TokenKind → Bool
  | .number _ | .name _ | .rightParen => true
  | .functionKeyword | .symbol _ | .leftParen | .comma | .newline | .semicolon => false

/-- the kind of token that a word is -/
inductive Makes : LexemeKind → List Char → TokenKind → Prop where
  | integer {w : List Char} {n : Int64} (hw : writesFloat w = false) (hn : n.toInt = signedValue w) :
      Makes .number w (.number (.integer n))
  | float {w : List Char} {x : Float} (hw : writesFloat w = true) (hx : Double.ofChars? w = some x)
      (hfinite : x.isFinite = true) : Makes .number w (.number (.float x))
  | functionKeyword : Makes .name ['f', 'n'] .functionKeyword
  | name {w : List Char} (hw : w ≠ ['f', 'n']) : Makes .name w (.name (String.ofList w))
  | symbol (s : Symbol) (w : List Char) : Makes (.symbol s) w (.symbol s)
  | leftParen (w : List Char) : Makes .leftParen w .leftParen
  | rightParen (w : List Char) : Makes .rightParen w .rightParen
  | comma (w : List Char) : Makes .comma w .comma
  | newline (w : List Char) : Makes .newline w .newline
  | semicolon (w : List Char) : Makes .semicolon w .semicolon

/-- the token is the word that starts at the byte `start` -/
structure Stands (kind : LexemeKind) (w : List Char) (start : Nat) (t : Token) : Prop where
  makes : Makes kind w t.kind
  span : t.span = ⟨start, start + byteLength w⟩

/-- The tokens into which a text splits that starts at the byte `pos`, after an operand or not: blank text, the longest
word at its place as a token, and the tokens of the text after it. -/
inductive Splits : Bool → Nat → List Char → List Token → Prop where
  | done {after : Bool} {pos : Nat} {b : List Char} (hb : Gap b []) : Splits after pos b []
  | token {after : Bool} {pos : Nat} {b w rest : List Char} {kind : LexemeKind} {t : Token} {ts : List Token}
      (hb : Gap b (w ++ rest)) (hblank : ¬ StartsBlank (w ++ rest)) (hw : Longest after (w ++ rest) kind w)
      (ht : Stands kind w (pos + byteLength b) t)
      (hrest : Splits (closesOperand t.kind) (pos + byteLength b + byteLength w) rest ts) :
      Splits after pos (b ++ (w ++ rest)) (t :: ts)

/-- **Operands end where the reader says.** -/
theorem closesOperand_eq (k : TokenKind) : closesOperand k = k.endsOperand := by
  cases k <;> rfl

theorem read_iff {w : List Char} {span : Span} {n : Literal} :
    Literal.read w span = .ok n ↔ Makes .number w (.number n) := by
  constructor
  · intro h
    unfold Literal.read at h
    split at h
    · next hfloat =>
      split at h
      · cases h
      · next hx =>
        split at h
        · next hfinite =>
          cases h
          exact .float hfloat hx hfinite
        · cases h
    · next hfloat =>
      split at h
      · next hn =>
        cases h
        exact .integer (Bool.not_eq_true _ ▸ hfloat) (Integer.toInt_of_ofInt? hn)
      · cases h
  · intro h
    cases h with
    | integer hw hn => simp [Literal.read, hw, ← hn, Integer.ofInt?_toInt]
    | float hw hx hfinite => simp [Literal.read, hw, hx, hfinite]

/-- **The reader makes of each word its token.** -/
theorem ofLexeme_iff {kind : LexemeKind} {w : List Char} {start : Nat} {t : Token} :
    Token.ofLexeme ⟨kind, w, start⟩ = .ok t ↔ Stands kind w start t := by
  constructor
  · intro h
    unfold Token.ofLexeme at h
    cases kind with
    | number =>
      obtain ⟨n, hn, rfl⟩ := map_eq_ok h
      exact ⟨read_iff.1 hn, rfl⟩
    | name =>
      cases h
      refine ⟨?_, rfl⟩
      simp only [Token.nameKind]
      split
      · next hw => exact hw ▸ .functionKeyword
      · next hw => exact .name hw
    | symbol s => cases h; exact ⟨.symbol s w, rfl⟩
    | leftParen => cases h; exact ⟨.leftParen w, rfl⟩
    | rightParen => cases h; exact ⟨.rightParen w, rfl⟩
    | comma => cases h; exact ⟨.comma w, rfl⟩
    | newline => cases h; exact ⟨.newline w, rfl⟩
    | semicolon => cases h; exact ⟨.semicolon w, rfl⟩
    | malformedNumber | openComment | unknown => cases h
  · obtain ⟨k, span⟩ := t
    rintro ⟨hmakes, rfl⟩
    simp only at hmakes
    cases hmakes with
    | integer hw hn => simp [Token.ofLexeme, read_iff.2 (.integer hw hn), Except.map, Lexeme.span, Lexeme.stop]
    | float hw hx hfinite =>
      simp [Token.ofLexeme, read_iff.2 (.float hw hx hfinite), Except.map, Lexeme.span, Lexeme.stop]
    | name hw => simp [Token.ofLexeme, Token.nameKind, hw, Lexeme.span, Lexeme.stop]
    | _ => rfl

/-- The first token as the reader makes it. -/
theorem Splits.ofLexeme {after : Bool} {pos : Nat} {b w rest : List Char} {kind : LexemeKind} {t : Token}
    {ts : List Token} (hb : Gap b (w ++ rest)) (hblank : ¬ StartsBlank (w ++ rest))
    (hw : Longest after (w ++ rest) kind w) (ht : Token.ofLexeme ⟨kind, w, pos + byteLength b⟩ = .ok t)
    (hrest : Splits t.kind.endsOperand (pos + byteLength b + byteLength w) rest ts) :
    Splits after pos (b ++ (w ++ rest)) (t :: ts) :=
  .token hb hblank hw (ofLexeme_iff.1 ht) (by rwa [closesOperand_eq])

section Splitting

variable {after : Bool} {pos start : Nat} {c : Char} {r cs : List Char} {t : Token} {ts : List Token}

/-- Before a malformed number a sign stays a symbol. -/
theorem munch_blocked (h : Blocked after c r) : munch after c r = cut c r := by
  obtain ⟨rfl, hs, d, r', rfl, hmalformed⟩ := h
  rcases munch_cut_or_signed false c (d :: r') with hcut | ⟨-, -, d', r'', heq, hnumber, -⟩
  · exact hcut
  · cases heq
    rw [hmalformed] at hnumber
    cases hnumber

theorem munch_of_malformed {d : Char} (after : Bool) (h : (cut d r).kind = .malformedNumber) :
    munch after d r = cut d r := by
  rcases munch_cut_or_signed after d r with hcut | ⟨-, hs, -⟩
  · exact hcut
  · obtain ⟨s, -, hcut⟩ := cut_sign hs r
    rw [hcut] at h
    cases h

/-- A text that starts with a malformed number has no tokens. -/
theorem tokens_malformed {d : Char} (after : Bool) (pos : Nat) (h : (cut d r).kind = .malformedNumber) :
    ∃ e, tokens after pos (d :: r) = .error e := by
  rw [tokens_cons (splitBlank_number (.inr h)), munch_of_malformed after h, Token.ofLexeme.eq_def, h]
  exact ⟨_, rfl⟩

/-- **A text that has tokens splits into them.** -/
theorem splits_of_tokens (h : tokens after pos cs = .ok ts) : Splits after pos cs ts := by
  induction hn : cs.length using Nat.strong_induction_on generalizing after pos cs ts with
  | _ n ih =>
    rcases hblank : splitBlank cs with ⟨b, f⟩
    obtain ⟨rfl, hgap, hnone⟩ := splitBlank_eq.1 hblank
    cases f with
    | nil =>
      rw [tokens_nil hblank] at h
      cases h
      rw [List.append_nil]
      exact .done hgap
    | cons c r =>
      rw [tokens_cons hblank] at h
      cases ht : Token.ofLexeme ⟨(munch after c r).kind, (munch after c r).text, pos + byteLength b⟩ with
      | error e =>
        rw [ht] at h
        cases h
      | ok t =>
        rw [ht] at h
        obtain ⟨us, hus, rfl⟩ := map_eq_ok h
        have happ := munch_append after c r
        have hlonger := List.length_pos_iff.2 (munch_ne_nil after c r)
        have hrest := ih (munch after c r).rest.length (by
          rw [← hn, List.length_append, ← happ, List.length_append]
          omega) hus rfl
        rcases munch_cases after c r with ⟨r', rfl, rfl⟩ | ⟨hunknown, -⟩ | ⟨hblocked, -⟩ | ⟨-, hlongest⟩
        · rw [munch_of_not_sign rfl] at ht
          cases ht
        · rw [hunknown] at ht
          cases ht
        · -- the number after the sign is malformed, so there are no more tokens
          rw [munch_blocked hblocked] at hus
          obtain ⟨-, hs, d, r', rfl, hmalformed⟩ := hblocked
          obtain ⟨s, -, hcut⟩ := cut_sign hs (d :: r')
          rw [hcut] at hus
          obtain ⟨e, he⟩ := tokens_malformed t.kind.endsOperand (pos + byteLength b + byteLength [c]) hmalformed
          rw [he] at hus
          cases hus
        · rw [← happ] at hgap hnone hlongest ⊢
          exact .ofLexeme hgap hnone hlongest ht hrest

/-- **A text has the tokens that it splits into.** -/
theorem Splits.tokens (h : Splits after pos cs ts) : Munching.tokens after pos cs = .ok ts := by
  induction h with
  | @done after pos b hb =>
    refine tokens_nil (b := b) (splitBlank_eq.2 ⟨(List.append_nil b).symm, hb, ?_⟩)
    rw [← blank?_eq_none]
    rfl
  | @token after pos b w rest kind t ts hb hblank hw ht hrest ih =>
    obtain ⟨c, r, hcr⟩ := List.exists_cons_of_ne_nil (l := w ++ rest) (fun hnil => hw.word.ne_nil
      (List.append_eq_nil_iff.1 hnil).1)
    have hsplit : splitBlank (b ++ (w ++ rest)) = (b, c :: r) :=
      splitBlank_eq.2 (by rw [← hcr]; exact ⟨rfl, hb, hblank⟩)
    have htext := munch_append after c r
    have hbad : ∀ {k : LexemeKind} {w' : List Char}, Longest after (c :: r) k w' → k = kind ∧ w' = w := by
      intro k w' h'
      rw [hcr] at hw
      exact h'.unique hw
    rcases munch_cases after c r with ⟨r', rfl, rfl⟩ | ⟨-, hnone⟩ | ⟨-, w', hmalformed⟩ | ⟨-, hlongest⟩
    · obtain ⟨rfl, -⟩ := hbad (longest_openComment after r')
      cases ht.makes
    · exact absurd (hcr ▸ hw.starts) (hnone kind w hw.word)
    · obtain ⟨rfl, -⟩ := hbad hmalformed
      cases ht.makes
    · obtain ⟨hkind, hwtext⟩ := hbad hlongest
      rw [hwtext, ← hcr] at htext
      rw [tokens_cons hsplit, hkind, hwtext, ofLexeme_iff.2 ht]
      simp only
      rw [List.append_cancel_left htext, ← closesOperand_eq, ih]
      rfl

end Splitting

/-! ## Faults -/

/-- no literal can hold the number that the text writes -/
def OutOfRange (w : List Char) : Prop :=
  if writesFloat w = true then ∃ x, Double.ofChars? w = some x ∧ x.isFinite = false
  else ¬ Integer.InRange (signedValue w)

/-- What is wrong with a text that starts at the byte `pos`, after an operand or not, and neither with blank text nor
with a token. -/
inductive Faulty (after : Bool) (pos : Nat) (cs : List Char) : LexError → Prop where
  | unterminatedComment (hblank : ¬ StartsBlank cs) (h : Longest after cs .openComment ['/', '*']) :
      Faulty after pos cs ⟨.unterminatedComment, ⟨pos, pos + byteLength cs⟩⟩
  | malformedNumber {w : List Char} (hw : Malformed w) (h : Longest after cs .malformedNumber w) :
      Faulty after pos cs ⟨.malformedNumber (String.ofList w), ⟨pos, pos + byteLength w⟩⟩
  | numberOutOfRange {w : List Char} (hw : OutOfRange w) (h : Longest after cs .number w) :
      Faulty after pos cs ⟨.numberOutOfRange (String.ofList w), ⟨pos, pos + byteLength w⟩⟩
  | unrecognizedCharacter {c : Char} {r : List Char} (hblank : ¬ StartsBlank cs) (hcs : cs = c :: r)
      (h : ∀ kind w, Word after kind w → ¬ w <+: cs) :
      Faulty after pos cs ⟨.unrecognizedCharacter c, ⟨pos, pos + c.utf8Size⟩⟩

/-- whether the tokens end with an operand, or else whether one stands before them -/
def endsOperand (after : Bool) : List Token → Bool
  | [] => after
  | t :: ts => endsOperand (closesOperand t.kind) ts

theorem exponent?_mark {x ds : List Char} (hx : Mark x) (hne : ds ≠ []) (hds : ∀ d ∈ ds, d.isDigit = true) :
    ∃ e, Double.exponent? (x ++ ds) = some e := by
  have hdigits : Double.exponentDigits? ds = some (Double.digitsValue ds) := if_pos ⟨hne, List.all_eq_true.2 hds⟩
  cases hx with
  | @intro e s he hs =>
    cases hs with
    | plus | minus => simp [Double.exponent?, he, hdigits]
    | none =>
      obtain ⟨d, ds', rfl⟩ := List.exists_cons_of_ne_nil hne
      have hd := hds d List.mem_cons_self
      have hplus : d ≠ '+' := by rintro rfl; exact absurd hd (by decide)
      have hminus : d ≠ '-' := by rintro rfl; exact absurd hd (by decide)
      simp [Double.exponent?, he, hdigits, hplus, hminus]

section Parts

variable {ds fs x : List Char} {e : Int} (hds : ∀ d ∈ ds, d.isDigit = true)
  (hx : ∀ c, x.head? = some c → c.isDigit = false ∧ c ≠ '.') (he : Double.exponent? x = some e)

include hds hx he

/-- The parts of a number without a point. -/
theorem parts_whole (hne : ds ≠ []) : Double.parts? (ds ++ x) = some ⟨ds, [], e⟩ := by
  have htake := takeWhile_run hds fun c hc => (hx c hc).1
  have hdrop := dropWhile_run hds fun c hc => (hx c hc).1
  simp only [Double.parts?, htake, hdrop]
  cases x with
  | nil => simp [hne, he]
  | cons c x => simp [(hx c rfl).2, hne, he]

/-- The parts of a number with a point. -/
theorem parts_point (hne : ds ≠ [] ∨ fs ≠ []) (hfs : ∀ d ∈ fs, d.isDigit = true) :
    Double.parts? (ds ++ '.' :: (fs ++ x)) = some ⟨ds, fs, e⟩ := by
  have hstop : ∀ c, ('.' :: (fs ++ x)).head? = some c → c.isDigit = false := by
    intro c hc
    cases hc
    rfl
  have htake := takeWhile_run hds hstop
  have hdrop := dropWhile_run hds hstop
  have htake' := takeWhile_run hfs fun c hc => (hx c hc).1
  have hdrop' := dropWhile_run hfs fun c hc => (hx c hc).1
  have hsome : ¬ (ds = [] ∧ fs = []) := fun hnil => hne.elim (fun h => h hnil.1) fun h => h hnil.2
  simp only [Double.parts?, htake, hdrop, htake', hdrop', if_neg hsome, he]
  rfl

end Parts

/-- The parts of a number are those of its mantissa with its exponent. -/
theorem Mantissa.parts {m x : List Char} {e : Int} (h : Mantissa m)
    (hx : ∀ c, x.head? = some c → c.isDigit = false ∧ c ≠ '.') (he : Double.exponent? x = some e) :
    ∃ p, Double.parts? (m ++ x) = some p := by
  cases h with
  | whole hne hds => exact ⟨_, parts_whole hds hx he hne⟩
  | point hne hds hfs =>
    rw [List.append_assoc, List.cons_append]
    exact ⟨_, parts_point hds hx he hne hfs⟩

/-- Every number is read as a double. -/
theorem ofChars?_number {after : Bool} {w : List Char} (h : Word after .number w) :
    ∃ x, Double.ofChars? w = some x := by
  have hparts : ∀ {n : List Char}, Number n → ∃ p, Double.parts? n = some p := by
    intro n hn
    cases hn with
    | plain hm =>
      have hread := Mantissa.parts (x := []) hm nofun rfl
      rwa [List.append_nil] at hread
    | @exponent m x ds hm hx hne hds =>
      obtain ⟨e, he⟩ := exponent?_mark hx hne hds
      exact Mantissa.parts hm (hx.stop ds) he
  cases h with
  | @number s n hs hn =>
    obtain ⟨p, hp⟩ := hparts hn
    cases hs with
    | plus => exact ⟨p.value, by simp [Double.ofChars?, hp]⟩
    | minus => exact ⟨-p.value, by simp [Double.ofChars?, hp]⟩
    | none =>
      rw [List.nil_append]
      unfold Double.ofChars?
      split
      · exact absurd (head_of_number (.inl hn)) (by decide)
      · exact absurd (head_of_number (.inl hn)) (by decide)
      · exact ⟨p.value, by rw [hp]; rfl⟩

/-- A number that is refused is out of range. -/
theorem fault_of_literal {after : Bool} {w : List Char} {span : Span} {e : LexError} (hw : Word after .number w)
    (h : Literal.read w span = .error e) : e = ⟨.numberOutOfRange (String.ofList w), span⟩ ∧ OutOfRange w := by
  unfold Literal.read at h
  split at h
  · next hfloat =>
    obtain ⟨x, hx⟩ := ofChars?_number hw
    simp only [hx] at h
    split at h
    · cases h
    · next hfinite =>
      cases h
      exact ⟨rfl, by simpa [OutOfRange, hfloat, hx] using hfinite⟩
  · next hfloat =>
    split at h
    · cases h
    · next hnone =>
      cases h
      refine ⟨rfl, ?_⟩
      unfold Integer.ofInt? at hnone
      rw [OutOfRange, if_neg hfloat]
      split at hnone
      · cases hnone
      · assumption

section Truncating

variable {after : Bool} {pos : Nat} {kind : LexemeKind} {c : Char} {r w f g cs : List Char}

/-- No word starts with the character that continues a line. -/
theorem ne_backslash (h : Word after kind w) (hw : w <+: c :: r) : c ≠ '\\' := by
  rintro rfl
  rcases h.cases_sign with hword | ⟨-, s, n, hs, rfl, -⟩
  · exact (length_le_cut hword hw).1 rfl
  · obtain ⟨t, ht⟩ := hw
    cases ht
    exact absurd hs (by decide)

/-- Whether blank text starts where a word does is seen at the character after the front of the word. -/
theorem not_startsBlank_of_head {w' : List Char} (hw : Longest after (c :: w' ++ f) kind (c :: w'))
    (hkind : kind ≠ .openComment) (h : ¬ StartsBlank (c :: w' ++ f))
    (hhead : ∀ d, (w' ++ g).head? = some d → d = ' ' ∨ (w' ++ f).head? = some d) : ¬ StartsBlank (c :: w' ++ g) := by
  have hback : c ≠ '\\' := ne_backslash hw.word hw.starts
  have hopen : c = '/' → (w' ++ f).head? ≠ some '*' := by
    rintro rfl hstar
    obtain ⟨r, hr⟩ := List.head?_eq_some_iff.1 hstar
    rw [List.cons_append, hr] at hw
    exact hkind (hw.unique (longest_openComment after r)).1
  rw [← blank?_eq_none, List.cons_append] at h ⊢
  obtain ⟨hspace, htab, hhash, hline⟩ := (LineBreaks.blank?_none_iff hback hopen).1 h
  have hsame : ∀ {d}, d ≠ ' ' → (w' ++ g).head? = some d → (w' ++ f).head? = some d :=
    fun hne hd => (hhead _ hd).resolve_left hne
  exact (LineBreaks.blank?_none_iff hback fun hc hd => hopen hc (hsame (by decide) hd)).2
    ⟨hspace, htab, hhash, fun hc hd => hline hc (hsame (by decide) hd)⟩

/-- Before a token, no blank text starts where the text ends sooner. -/
theorem not_startsBlank_truncate (hw : Longest after (w ++ (f ++ g)) kind w) (hkind : kind ≠ .openComment)
    (h : ¬ StartsBlank (w ++ (f ++ g))) : ¬ StartsBlank (w ++ f) := by
  obtain ⟨c, w', rfl⟩ := List.exists_cons_of_ne_nil hw.word.ne_nil
  refine not_startsBlank_of_head hw hkind h fun d hd => Or.inr ?_
  rw [← List.append_assoc, List.head?_append, hd]
  rfl

/-- Before a token, no blank text starts where a space follows further on. -/
theorem not_startsBlank_extend (hw : Longest after (w ++ f) kind w) (hkind : kind ≠ .openComment)
    (h : ¬ StartsBlank (w ++ f)) (g : List Char) : ¬ StartsBlank (w ++ (f ++ ' ' :: g)) := by
  obtain ⟨c, w', rfl⟩ := List.exists_cons_of_ne_nil hw.word.ne_nil
  refine not_startsBlank_of_head hw hkind h fun d hd => ?_
  rw [← List.append_assoc, List.head?_append] at hd
  cases hf : (w' ++ f).head? with
  | none =>
    rw [hf] at hd
    cases hd
    exact Or.inl rfl
  | some e =>
    rw [hf] at hd
    exact Or.inr hd

/-- The text before a malformed number splits where a sign stands before it. -/
theorem longest_sign (after : Bool) (hs : isSign c = true) :
    ¬ StartsBlank [c] ∧ Longest after ([c] ++ []) (cut c r).kind [c] := by
  obtain ⟨s, -, hcut⟩ := cut_sign hs r
  obtain ⟨s', -, hcut'⟩ := cut_sign hs []
  have hlongest : Longest true [c] (cut c []).kind (cut c []).text := by
    refine cut_longest ?_ ?_ <;> simp [hcut']
  have hsame : (cut c []).kind = (cut c r).kind := by
    rcases isSign_iff.1 hs with rfl | rfl <;> rfl
  rw [hsame, hcut'] at hlongest
  refine ⟨?_, hlongest.of_unsigned nofun⟩
  rw [← blank?_eq_none]
  rcases isSign_iff.1 hs with rfl | rfl <;> rfl

/-- What is wrong with a text whose first lexeme makes no token. -/
theorem faulty_of_lexeme {start : Nat} {e : LexError} (hblank : ¬ StartsBlank (c :: r))
    (h : Token.ofLexeme ⟨(munch after c r).kind, (munch after c r).text, start⟩ = .error e) :
    Faulty after start (c :: r) e ∧ e.span.start = start := by
  rcases munch_cases after c r with ⟨r', rfl, rfl⟩ | ⟨hunknown, hnone⟩ | ⟨hblocked, -⟩ | ⟨hopen, hlongest⟩
  · rw [munch_of_not_sign rfl] at h
    cases h
    exact ⟨.unterminatedComment hblank (longest_openComment after r'), rfl⟩
  · rw [hunknown] at h
    cases h
    exact ⟨.unrecognizedCharacter hblank rfl hnone, rfl⟩
  · rw [munch_blocked hblocked] at h
    obtain ⟨-, hs, -⟩ := hblocked
    obtain ⟨s, -, hcut⟩ := cut_sign hs r
    rw [hcut] at h
    cases h
  · have hcut := munch_cut_or_signed after c r
    generalize hmunch : munch after c r = p at h hopen hlongest hcut
    obtain ⟨kind, w, rest⟩ := p
    simp only at h hopen hlongest
    have hword := hlongest.word
    cases hword with
    | openComment => exact absurd rfl hopen
    | @number s n hs hn =>
      obtain ⟨rfl, hrange⟩ := fault_of_literal hlongest.word (map_eq_error h)
      exact ⟨.numberOutOfRange hrange hlongest, rfl⟩
    | @malformed s n hs hn =>
      cases h
      -- a sign joins no malformed number
      have hself : Word true .malformedNumber (s ++ n) := by
        rcases hcut with hcut | ⟨-, -, d, r', -, -, hcut⟩
        · have hkind : (cut c r).kind = .malformedNumber := by rw [← hcut]
          have hlongest' := cut_longest (c := c) (r := r) (by simp [hkind]) (by simp [hkind])
          rw [← hcut] at hlongest'
          exact hlongest'.word
        · cases hcut
      exact ⟨.malformedNumber hself.isMalformed hlongest, rfl⟩
    | _ => cases h

/-- A malformed number is the fault of the text that it starts. -/
theorem fault_of_malformed {d : Char} {e : LexError} (hd : (cut d r).kind = .malformedNumber)
    (h : Munching.tokens after pos (d :: r) = .error e) : Faulty after pos (d :: r) e ∧ e.span.start = pos := by
  have hblank := (splitBlank_eq.1 (splitBlank_number (.inr hd))).2.2
  rw [tokens_cons (splitBlank_number (.inr hd))] at h
  cases ht : Token.ofLexeme ⟨(munch after d r).kind, (munch after d r).text, pos + byteLength []⟩ with
  | error e' =>
    rw [ht] at h
    cases h
    exact faulty_of_lexeme hblank ht
  | ok t =>
    rw [munch_of_malformed after hd, Token.ofLexeme.eq_def, hd] at ht
    cases ht

/-- **A text without tokens splits up to its fault.** -/
theorem fault_of_tokens {e : LexError} (h : Munching.tokens after pos cs = .error e) :
    ∃ pre rest ts, cs = pre ++ rest ∧ e.span.start = pos + byteLength pre ∧ Splits after pos pre ts ∧
      Faulty (endsOperand after ts) (pos + byteLength pre) rest e := by
  induction hn : cs.length using Nat.strong_induction_on generalizing after pos cs with
  | _ n ih =>
    rcases hsplit : splitBlank cs with ⟨b, rest⟩
    obtain ⟨rfl, hgap, hblank⟩ := splitBlank_eq.1 hsplit
    cases rest with
    | nil =>
      rw [tokens_nil hsplit] at h
      cases h
    | cons c r =>
      rw [tokens_cons hsplit] at h
      cases ht : Token.ofLexeme ⟨(munch after c r).kind, (munch after c r).text, pos + byteLength b⟩ with
      | error e' =>
        rw [ht] at h
        cases h
        obtain ⟨hfaulty, hstart⟩ := faulty_of_lexeme hblank ht
        exact ⟨b, c :: r, [], rfl, hstart, .done (Gap.truncate (g := c :: r) hgap), hfaulty⟩
      | ok t =>
        rw [ht] at h
        have happ := munch_append after c r
        have hlonger := List.length_pos_iff.2 (munch_ne_nil after c r)
        have hrest : Munching.tokens t.kind.endsOperand (pos + byteLength b + byteLength (munch after c r).text)
            (munch after c r).rest = .error e := map_eq_error h
        rcases munch_cases after c r with ⟨r', rfl, rfl⟩ | ⟨hunknown, -⟩ | ⟨hblocked, -⟩ | ⟨hopen, hlongest⟩
        · rw [munch_of_not_sign rfl] at ht
          cases ht
        · rw [hunknown] at ht
          cases ht
        · -- the fault is the number after the sign
          rw [munch_blocked hblocked] at ht hrest
          obtain ⟨-, hs, d, r', rfl, hmalformed⟩ := hblocked
          obtain ⟨hnone, hlongest⟩ := longest_sign (r := d :: r') after hs
          obtain ⟨s, -, hcut⟩ := cut_sign hs (d :: r')
          rw [hcut] at ht hrest hlongest
          obtain ⟨hfaulty, hstart⟩ := fault_of_malformed hmalformed hrest
          refine ⟨b ++ ([c] ++ []), d :: r', [t], by simp, ?_, ?_, ?_⟩
          · simpa [Nat.add_assoc] using hstart
          · exact .ofLexeme (Gap.truncate (g := d :: r') hgap) hnone hlongest ht (.done (.nil []))
          · simpa [endsOperand, closesOperand_eq, Nat.add_assoc] using hfaulty
        · obtain ⟨pre, rest, ts, hsplits, hstart, hpre, hfaulty⟩ := ih (munch after c r).rest.length (by
            rw [← hn, List.length_append, ← happ, List.length_append]
            omega) hrest rfl
          rw [hsplits] at happ
          rw [← happ] at hgap hblank hlongest ⊢
          refine ⟨b ++ ((munch after c r).text ++ pre), rest, t :: ts, by simp, ?_, ?_, ?_⟩
          · simpa [Nat.add_assoc] using hstart
          · exact .ofLexeme (Gap.truncate (g := rest) (by simpa using hgap))
              (not_startsBlank_truncate hlongest hopen hblank) hlongest.truncate ht hpre
          · simpa [endsOperand, closesOperand_eq, Nat.add_assoc] using hfaulty

end Truncating

/-! ## Spans -/

/-- the byte offset stands between two characters, or at an end, of the text -/
def OnBoundary (cs : List Char) (n : Nat) : Prop := ∃ pre rest, cs = pre ++ rest ∧ n = byteLength pre

theorem span_ofLexeme {l : Lexeme} {t : Token} (h : Token.ofLexeme l = .ok t) : t.span = l.span :=
  (ofLexeme_iff.1 h).span

/-- A token covers a word of the text. -/
theorem Splits.covers {after : Bool} {pos : Nat} {cs : List Char} {ts : List Token} (h : Splits after pos cs ts) :
    ∀ t ∈ ts, ∃ pre w rest, cs = pre ++ (w ++ rest) ∧ w ≠ [] ∧
      t.span = ⟨pos + byteLength pre, pos + byteLength pre + byteLength w⟩ := by
  induction h with
  | done => simp
  | @token after pos b w rest kind t ts hb hblank hw ht hrest ih =>
    rw [List.forall_mem_cons]
    refine ⟨⟨b, w, rest, rfl, hw.word.ne_nil, ht.span⟩, fun u hu => ?_⟩
    obtain ⟨pre, w', rest', rfl, hne, hspan⟩ := ih u hu
    exact ⟨b ++ (w ++ pre), w', rest', by simp, hne, by simp [hspan, Nat.add_assoc]⟩

theorem Splits.ordered {after : Bool} {pos : Nat} {cs : List Char} {ts : List Token} (h : Splits after pos cs ts) :
    ts.Pairwise fun t u => t.span.stop ≤ u.span.start := by
  induction h with
  | done => exact List.Pairwise.nil
  | token hb hblank hw ht hrest ih =>
    refine List.Pairwise.cons (fun u hu => ?_) ih
    obtain ⟨pre, w, rest, -, -, hspan⟩ := hrest.covers u hu
    rw [ht.span, hspan]
    exact Nat.le_add_right _ _

/-! ## Main result -/

/-- **Tokenising is a lossless split into longest words.** For every source text:
- it has tokens exactly if it splits into them: blank text, the longest word, blank text, and so on up to its end;
- the spans of its tokens are not empty, lie on the boundaries of characters, are in order and do not overlap;
- if it has none, the text before the fault has, and the fault is what is wrong with the rest, where a sign after the
  last of these tokens would or would not join a number. -/
theorem tokenize_munches (source : String) :
    (∀ ts, Token.tokenize source = .ok ts ↔ Splits false 0 source.toList ts) ∧
    (∀ ts, Token.tokenize source = .ok ts →
      (∀ t ∈ ts, t.span.start < t.span.stop ∧ OnBoundary source.toList t.span.start ∧
        OnBoundary source.toList t.span.stop) ∧
      ts.Pairwise fun t u => t.span.stop ≤ u.span.start) ∧
    (∀ e, Token.tokenize source = .error e → ∃ pre rest ts, source.toList = pre ++ rest ∧
      e.span.start = byteLength pre ∧ Token.tokenize (String.ofList pre) = .ok ts ∧
      Faulty (endsOperand false ts) (byteLength pre) rest e) := by
  refine ⟨fun ts => ⟨splits_of_tokens, Splits.tokens⟩, fun ts h => ?_, fun e h => ?_⟩
  · have hsplits : Splits false 0 source.toList ts := splits_of_tokens h
    refine ⟨fun t ht => ?_, hsplits.ordered⟩
    obtain ⟨pre, w, rest, hcs, hne, hspan⟩ := hsplits.covers t ht
    have hpos := byteLength_pos hne
    rw [hspan]
    refine ⟨by simp only; omega, ⟨pre, w ++ rest, hcs, by simp⟩, ⟨pre ++ w, rest, by simp [hcs], by simp⟩⟩
  · have htokens : tokens false 0 source.toList = .error e := h
    obtain ⟨pre, rest, ts, hcs, hstart, hpre, hfaulty⟩ := fault_of_tokens htokens
    rw [Nat.zero_add] at hstart hfaulty
    refine ⟨pre, rest, ts, hcs, hstart, ?_, hfaulty⟩
    rw [Token.tokenize, String.toList_ofList]
    exact hpre.tokens

end CurveScript.Munching
