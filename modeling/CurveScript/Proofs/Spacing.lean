/-
Blank text between tokens.

Spaces, tabs, continued lines and closed block comments, with a space at either end, are blank text wherever they stand.
Put right after a token they change nothing: no word holds a space, so the words before them stay the longest at their
places, and the text after them splits as it did. A sign that joined a number is part of one token, and a sign that did
not join one before does not join one now.

Results:
- `Filler.gap`: such a text is blank before any text.
- `Splits.shift`, `Splits.padded`: a text that starts later, with padding before it.
- `Splits.insert`: padding after one of the tokens. The induction is on the tokens before it.
- `padding_meaningless`: the theorem.
Witness: `difference_padded`.
-/
import CurveScript.Proofs.Munching

namespace CurveScript.Spacing

open CurveScript.Blanks CurveScript.Words CurveScript.Munching

/-! ## Padding -/

/-- spaces, tabs, continued lines and closed block comments -/
inductive Filler : List Char → Prop where
  | nil : Filler []
  | space {t : List Char} (h : Filler t) : Filler (' ' :: t)
  | tab {t : List Char} (h : Filler t) : Filler ('\t' :: t)
  | continued {b t : List Char} (hb : b = ['\n'] ∨ b = ['\r', '\n'] ∨ b = ['\r']) (h : Filler t) :
      Filler ('\\' :: (b ++ t))
  | comment {body t : List Char} (hbody : ¬ ['*', '/'] <:+: body) (h : Filler t) :
      Filler ('/' :: '*' :: (body ++ ['*', '/'] ++ t))

/-- such a text with a space at either end -/
structure Padding (t : List Char) : Prop where
  filler : Filler t
  first : t.head? = some ' '
  last : t.getLast? = some ' '

theorem Filler.head_ne {t : List Char} (h : Filler t) : t.head? ≠ some '\n' := by
  cases h <;> simp

/-- Where a text ends in a space, what follows its first part does, too. -/
theorem last_of_append {p t : List Char} (hp : p.getLast? ≠ some ' ') (h : (p ++ t).getLast? = some ' ') :
    t.getLast? = some ' ' := by
  rw [List.getLast?_append] at h
  cases ht : t.getLast? with
  | none =>
    rw [ht] at h
    exact absurd h hp
  | some c => rwa [ht] at h

theorem ne_nil_of_last {t : List Char} (h : t.getLast? = some ' ') : t ≠ [] := by
  rintro rfl
  cases h

/-- **Padding is blank before any text.** Only a continued line looks at what follows, and a space ends the padding. -/
theorem Filler.gap {t : List Char} (h : Filler t) (hlast : t = [] ∨ t.getLast? = some ' ') (f : List Char) :
    Gap t f := by
  induction h with
  | nil => exact .nil f
  | @space t h ih =>
    have hrest : t = [] ∨ t.getLast? = some ' ' := by
      cases t with
      | nil => exact Or.inl rfl
      | cons c t => exact Or.inr (hlast.resolve_left (List.cons_ne_nil _ _))
    exact .cons (.space _) (ih hrest)
  | @tab t h ih =>
    have hrest : t.getLast? = some ' ' :=
      last_of_append (p := ['\t']) (by decide) (hlast.resolve_left (List.cons_ne_nil _ _))
    exact .cons (.tab _) (ih (Or.inr hrest))
  | @continued b t hb h ih =>
    have hb' : ('\\' :: b).getLast? ≠ some ' ' := by
      rcases hb with rfl | rfl | rfl <;> decide
    have hrest : t.getLast? = some ' ' := last_of_append hb' (hlast.resolve_left (List.cons_ne_nil _ _))
    have hnext : (t ++ f).head? ≠ some '\n' := by
      rw [List.head?_append_of_ne_nil t (ne_nil_of_last hrest)]
      exact h.head_ne
    have hbreak : Break b (t ++ f) := by
      rcases hb with rfl | rfl | rfl
      · exact .lineFeed _
      · exact .pair _
      · exact .carriageReturn hnext
    exact .cons (.continued hbreak) (ih (Or.inr hrest))
  | @comment body t hbody h ih =>
    have hmark : ('/' :: '*' :: (body ++ ['*', '/'])).getLast? ≠ some ' ' := by
      have hslash : ('/' :: '*' :: (body ++ ['*', '/'])).getLast? = some '/' := by
        have hends : '/' :: '*' :: (body ++ ['*', '/']) = ('/' :: '*' :: (body ++ ['*'])) ++ ['/'] := by simp
        rw [hends, List.getLast?_concat]
      rw [hslash]
      decide
    have hrest : t.getLast? = some ' ' := last_of_append hmark (hlast.resolve_left (List.cons_ne_nil _ _))
    exact .cons (.block _ hbody) (ih (Or.inr hrest))

theorem Padding.gap {t : List Char} (h : Padding t) (f : List Char) : Gap t f := h.filler.gap (Or.inr h.last) f

theorem Padding.exists_tail {t : List Char} (h : Padding t) : ∃ t', t = ' ' :: t' := List.head?_eq_some_iff.1 h.first

/-! ## Splits -/

theorem head?_word {w f g : List Char} (hw : w ≠ []) : (w ++ g).head? = (w ++ f).head? := by
  rw [List.head?_append_of_ne_nil w hw, List.head?_append_of_ne_nil w hw]

section Splits

variable {after : Bool} {pos : Nat} {cs t : List Char} {ts : List Token}

/-- A text that starts later splits into the same tokens, later. -/
theorem Splits.shift (h : Splits after pos cs ts) (k : Nat) : Splits after (pos + k) cs (ts.map (Token.shift k)) := by
  induction h with
  | done hb => exact .done hb
  | @token after pos b w rest kind u us hb hblank hw hu hrest ih =>
    have hmoved : Stands kind w (pos + k + byteLength b) (u.shift k) := by
      refine ⟨hu.makes, ?_⟩
      simp only [Token.shift, Span.shift, hu.span, Span.mk.injEq]
      omega
    have hlater : pos + byteLength b + byteLength w + k = pos + k + byteLength b + byteLength w := by omega
    rw [hlater] at ih
    exact .token hb hblank hw hmoved ih

/-- Padding before a text only moves its tokens. -/
theorem Splits.padded (ht : Padding t) (h : Splits after pos cs ts) :
    Splits after pos (t ++ cs) (ts.map (Token.shift (byteLength t))) := by
  have hshift := Splits.shift h (byteLength t)
  generalize ts.map (Token.shift (byteLength t)) = us at hshift
  cases hshift with
  | @done _ _ b hb => exact .done (Gap.append (ht.gap _) hb)
  | @token _ _ b w rest kind u us hb hblank hw hu hrest =>
    have hstart : pos + byteLength t + byteLength b = pos + byteLength (t ++ b) := by
      rw [byteLength_append]
      omega
    rw [hstart] at hu hrest
    rw [← List.append_assoc]
    exact .token (Gap.append (ht.gap _) hb) hblank hw hu hrest

theorem kind_of_token {kind : LexemeKind} {w : List Char} {u : Token} (h : Stands kind w pos u) :
    kind ≠ .openComment := (LineBreaks.kind_of_ofLexeme (ofLexeme_iff.2 h)).1

/-- **Padding after a token** moves the tokens after it and leaves all others alone. -/
theorem Splits.insert (ht : Padding t) {us vs : List Token} {u : Token} (h : Splits after pos cs (us ++ u :: vs)) :
    ∃ pre post, cs = pre ++ post ∧ pos + byteLength pre = u.span.stop ∧
      Splits after pos (pre ++ (t ++ post)) (us ++ u :: vs.map (Token.shift (byteLength t))) := by
  obtain ⟨t', ht'⟩ := ht.exists_tail
  -- the first token of a text stands also before `f`, if a space follows `f`
  have hfirst : ∀ {after : Bool} {pos : Nat} {b w f post : List Char} {kind : LexemeKind} {u : Token} {us : List Token},
      Gap b (w ++ (f ++ post)) → ¬ StartsBlank (w ++ (f ++ post)) → Longest after (w ++ (f ++ post)) kind w →
      Stands kind w (pos + byteLength b) u →
      Splits (closesOperand u.kind) (pos + byteLength b + byteLength w) (f ++ (t ++ post)) us →
      Splits after pos (b ++ (w ++ (f ++ (t ++ post)))) (u :: us) := by
    intro after pos b w f post kind u us hb hblank hw hu hrest
    have hkind := kind_of_token hu
    have hlongest := Longest.extend hw.truncate (t' ++ post)
    have hnone := not_startsBlank_extend hw.truncate hkind (not_startsBlank_truncate hw hkind hblank) (t' ++ post)
    rw [← List.cons_append, ← ht'] at hlongest hnone
    exact .token (hb.of_head (head?_word hw.word.ne_nil)) hnone hlongest hu hrest
  induction us generalizing after pos cs with
  | nil =>
    cases h with
    | @token _ _ b w rest kind _ _ hb hblank hw hu hrest =>
      refine ⟨b ++ w, rest, (List.append_assoc b w rest).symm, ?_, ?_⟩
      · rw [hu.span, byteLength_append, ← Nat.add_assoc]
      · rw [List.append_assoc]
        exact hfirst (f := []) hb hblank hw hu (Splits.padded ht hrest)
  | cons u' us ih =>
    cases h with
    | @token _ _ b w rest kind _ _ hb hblank hw hu hrest =>
      obtain ⟨pre, post, rfl, hstop, hsplits⟩ := ih hrest
      refine ⟨b ++ (w ++ pre), post, by simp, ?_, ?_⟩
      · rw [byteLength_append, byteLength_append, ← hstop]
        omega
      · rw [List.append_assoc, List.append_assoc]
        exact hfirst hb hblank hw hu hsplits

end Splits

/-! ## Main result -/

/-- **Blank space and block comments between tokens carry no meaning.** For every source with tokens, every token of it
and every padding: the token ends between two characters of the source, and with the padding put there the source has
the same tokens, those after the padding moved by its length. -/
theorem padding_meaningless (source : String) {us vs : List Token} {u : Token}
    (h : Token.tokenize source = .ok (us ++ u :: vs)) {t : List Char} (ht : Padding t) :
    ∃ pre post, source.toList = pre ++ post ∧ byteLength pre = u.span.stop ∧
      Token.tokenize (String.ofList (pre ++ t ++ post)) = .ok (us ++ u :: vs.map (Token.shift (byteLength t))) := by
  have hsplits : Splits false 0 source.toList (us ++ u :: vs) := splits_of_tokens h
  obtain ⟨pre, post, hsource, hstop, hpadded⟩ := Splits.insert ht hsplits
  refine ⟨pre, post, hsource, by rwa [Nat.zero_add] at hstop, ?_⟩
  rw [Token.tokenize, String.toList_ofList, List.append_assoc]
  exact hpadded.tokens

/-- The difference `x-1`, with a comment between spaces put after its sign. -/
theorem difference_padded :
    ∃ us u vs, Token.tokenize "x-1" = .ok (us ++ u :: vs) ∧ Padding (" /**/ ".toList) ∧
      ∃ pre post, "x-1".toList = pre ++ post ∧ byteLength pre = u.span.stop ∧
        Token.tokenize (String.ofList (pre ++ " /**/ ".toList ++ post)) =
          .ok (us ++ u :: vs.map (Token.shift (byteLength " /**/ ".toList))) := by
  have h : Token.tokenize "x-1" =
      .ok ([⟨.name "x", ⟨0, 1⟩⟩] ++ ⟨.symbol .minus, ⟨1, 2⟩⟩ :: [⟨.number (.integer 1), ⟨2, 3⟩⟩]) := by
    with_unfolding_all rfl
  have ht : Padding (" /**/ ".toList) :=
    ⟨.space (@Filler.comment [] _ (by decide) (.space .nil)), rfl, rfl⟩
  exact ⟨_, _, _, h, ht, padding_meaningless "x-1" h ht⟩

/-- `x-1`, `x -1` and `x - 1` have tokens of the same kinds. -/
example : ∀ source ∈ ["x-1", "x -1", "x - 1"],
    ((Token.tokenize source).map (List.map fun t => t.kind.text)).toOption = some ["identifier 'x'", "'-'", "number 1"] := by
  decide +kernel

end CurveScript.Spacing
