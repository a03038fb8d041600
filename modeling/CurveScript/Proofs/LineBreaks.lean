/-
Cutting a text at a line feed.

A text that has tokens and does not end in a carriage return is complete: nothing in it waits for what follows a line
feed. Its last line comment ends there, no block comment is open, a backslash that would continue the line is no token,
and no number, name or symbol goes on. So the lexemes of the text, a newline and the lexemes of what follows are the
lexemes of the whole.

Results:
- `blank?_break`, `splitBlank_break`, `cut_break`: blank text and lexemes at the front do not change.
- `split_break`: the lexemes of the whole; the recursion is that of `Lexeme.split` on the text before the line feed.
- `ofLexemes_break`: the tokens of the whole. A newline is no sign and ends no operand, so no number is joined across it.
- `ofChars_break`: the tokens of two texts with a line feed between them, or the fault of the second.
- `tokenize_lines`: the same for source texts.
Witness: `commented_lines`.
-/
import CurveScript.Proofs.Shifting

namespace CurveScript.LineBreaks

open CurveScript.Readers (map_eq_ok)

variable {b : List Char}

/-! ## Runs of characters -/

theorem takeWhile_break {p : Char → Bool} (hp : p '\n' = false) (r : List Char) :
    (r ++ '\n' :: b).takeWhile p = r.takeWhile p := by
  induction r with
  | nil => simp [hp]
  | cons c r ih => simp only [List.cons_append, List.takeWhile_cons, ih]

theorem dropWhile_break {p : Char → Bool} (hp : p '\n' = false) (r : List Char) :
    (r ++ '\n' :: b).dropWhile p = r.dropWhile p ++ '\n' :: b := by
  induction r with
  | nil => simp [hp]
  | cons c r ih =>
    simp only [List.cons_append, List.dropWhile_cons, ih]
    split <;> rfl

/-- What is left of a text that does not end in a carriage return does not end in one. -/
theorem getLast?_suffix {c : Char} {used rest cs : List Char} (h : used ++ rest = cs) (hcs : cs.getLast? ≠ some c) :
    rest.getLast? ≠ some c := by
  intro hlast
  rw [← h, List.getLast?_append, hlast] at hcs
  exact hcs rfl

/-! ## Blank text -/

theorem lineBreak?_break {cs used rest : List Char} (hcr : cs.getLast? ≠ some '\r')
    (h : lineBreak? cs = some (used, rest)) : lineBreak? (cs ++ '\n' :: b) = some (used, rest ++ '\n' :: b) := by
  unfold lineBreak? at h
  split at h
  · cases h; rfl
  · cases h; rfl
  · next r hnext =>
    cases h
    cases rest with
    | nil => exact absurd rfl hcr
    | cons c r =>
      have hc : c ≠ '\n' := fun hc => hnext r (by rw [hc])
      simp [lineBreak?, hc]
  · cases h

theorem lineBreak?_none {c : Char} {r : List Char} (h : lineBreak? (c :: r) = none) :
    lineBreak? (c :: r ++ '\n' :: b) = none := by
  unfold lineBreak? at h ⊢
  split at h <;> simp_all

theorem commentBody?_break {cs used rest : List Char} (h : commentBody? cs = some (used, rest)) :
    commentBody? (cs ++ '\n' :: b) = some (used, rest ++ '\n' :: b) := by
  fun_induction commentBody? cs generalizing used rest with
  | case1 => cases h
  | case2 r => cases h; rfl
  | case3 c r hne ih =>
    obtain ⟨p, hp, he⟩ := Option.map_eq_some_iff.1 h
    cases he
    have hother : ∀ r', c = '*' → r ++ '\n' :: b = '/' :: r' → False := by
      intro r' hc hr
      cases r with
      | nil => cases hp
      | cons d r => cases hr; exact hne _ hc rfl
    rw [List.cons_append, commentBody?, ih hp]
    · rfl
    · exact hother

/-- A piece of blank text is complete before a line feed. -/
theorem blank?_break {cs used rest : List Char} (hcr : cs.getLast? ≠ some '\r') (h : blank? cs = some (used, rest)) :
    blank? (cs ++ '\n' :: b) = some (used, rest ++ '\n' :: b) := by
  unfold blank? at h
  split at h
  · cases h; rfl
  · cases h; rfl
  · next r =>
    obtain ⟨p, hp, he⟩ := Option.map_eq_some_iff.1 h
    cases he
    have hcr' : r.getLast? ≠ some '\r' := getLast?_suffix (List.singleton_append : ['\\'] ++ r = '\\' :: r) hcr
    have hbreak := lineBreak?_break (b := b) hcr' hp
    simp [blank?, hbreak]
  · cases h
    simp [blank?, takeWhile_break, dropWhile_break, inLine]
  · cases h
    simp [blank?, takeWhile_break, dropWhile_break, inLine]
  · next r =>
    obtain ⟨p, hp, he⟩ := Option.map_eq_some_iff.1 h
    cases he
    simp [blank?, commentBody?_break hp]
  · cases h

/-- which characters start no blank text, if they continue no line and open no comment -/
theorem blank?_none_iff {c : Char} {r : List Char} (hslash : c ≠ '\\') (hcomment : c = '/' → r.head? ≠ some '*') :
    blank? (c :: r) = none ↔ c ≠ ' ' ∧ c ≠ '\t' ∧ c ≠ '#' ∧ (c = '/' → r.head? ≠ some '/') := by
  unfold blank?
  split <;> simp_all [List.head?_eq_some_iff]

/-- Where no blank text starts, a line feed further on makes none: no line is continued at the end of the text, and no
comment is open. -/
theorem blank?_none {c : Char} {r : List Char} (h : blank? (c :: r) = none) (hcomment : (cut c r).kind ≠ .openComment)
    (hunknown : (cut c r).kind ≠ .unknown) : blank? (c :: r ++ '\n' :: b) = none := by
  by_cases hslash : c = '\\'
  · subst hslash
    cases r with
    | nil => exact absurd rfl hunknown
    | cons d r =>
      have hnone : lineBreak? (d :: r) = none := by simpa [blank?] using h
      have hbreak := lineBreak?_none (b := b) hnone
      simp only [List.cons_append] at hbreak
      simp [blank?, hbreak]
  · have hother : c = '/' → r.head? ≠ some '*' := by
      rintro rfl hhead
      obtain ⟨r', rfl⟩ := List.head?_eq_some_iff.1 hhead
      exact hcomment rfl
    obtain ⟨hspace, htab, hhash, hline⟩ := (blank?_none_iff hslash hother).1 h
    refine (blank?_none_iff hslash fun hc => ?_).2 ⟨hspace, htab, hhash, fun hc => ?_⟩
    · cases r with
      | nil => simp
      | cons d r => exact hother hc
    · cases r with
      | nil => simp
      | cons d r => exact hline hc

theorem blank?_after {cs : List Char} : blank? (splitBlank cs).2 = none := by
  fun_induction splitBlank cs with
  | case1 cs h => exact h
  | case2 cs used r h rest ih => exact ih

/-- All blank text at the front is complete before a line feed, if none starts with what is left. -/
theorem splitBlank_break {cs : List Char} (hcr : cs.getLast? ≠ some '\r')
    (hrest : blank? ((splitBlank cs).2 ++ '\n' :: b) = none) :
    splitBlank (cs ++ '\n' :: b) = ((splitBlank cs).1, (splitBlank cs).2 ++ '\n' :: b) := by
  fun_induction splitBlank cs with
  | case1 cs h =>
    rw [splitBlank]
    split
    · rfl
    · next hsome => rw [hrest] at hsome; cases hsome
  | case2 cs used r h rest ih =>
    have hbreak := blank?_break (b := b) hcr h
    have hsuffix := getLast?_suffix (blank?_append h).1 hcr
    rw [splitBlank]
    split
    · next hnone => rw [hbreak] at hnone; cases hnone
    · next hsome =>
      rw [hbreak] at hsome
      cases hsome
      simp only [ih hsuffix hrest, rest]

/-! ## Lexemes -/

theorem takeDigits_break (r : List Char) : (r ++ '\n' :: b).takeWhile Char.isDigit = r.takeWhile Char.isDigit :=
  takeWhile_break rfl r

theorem dropDigits_break (r : List Char) :
    (r ++ '\n' :: b).dropWhile Char.isDigit = r.dropWhile Char.isDigit ++ '\n' :: b :=
  dropWhile_break rfl r

theorem mantissa?_break (c : Char) (r : List Char) :
    mantissa? (c :: r ++ '\n' :: b) = (mantissa? (c :: r)).map fun p => (p.1, p.2 ++ '\n' :: b) := by
  by_cases hc : c = '.'
  · subst hc
    simp only [List.cons_append, mantissa?, takeDigits_break, dropDigits_break]
    split <;> rfl
  · have hpoint : ∀ r r' : List Char, c :: r = '.' :: r' → False := fun r r' h => hc (List.cons.inj h).1
    have htake := takeDigits_break (b := b) (c :: r)
    have hdrop := dropDigits_break (b := b) (c :: r)
    rw [List.cons_append] at htake hdrop ⊢
    rw [mantissa?, mantissa?, htake, hdrop]
    · split
      · rfl
      · cases (c :: r).dropWhile Char.isDigit with
        | nil => rfl
        | cons d rest =>
          by_cases hd : d = '.'
          · subst hd
            simp [takeDigits_break, dropDigits_break]
          · simp [hd]
    · exact hpoint r
    · exact hpoint _

theorem exponentSign_break (r : List Char) :
    exponentSign (r ++ '\n' :: b) = ((exponentSign r).1, (exponentSign r).2 ++ '\n' :: b) := by
  cases r with
  | nil => rfl
  | cons d r =>
    by_cases hplus : d = '+'
    · subst hplus; rfl
    · by_cases hminus : d = '-'
      · subst hminus; rfl
      · simp [exponentSign, hplus, hminus]

theorem cutNumber_break (m r : List Char) :
    cutNumber m (r ++ '\n' :: b) = { cutNumber m r with rest := (cutNumber m r).rest ++ '\n' :: b } := by
  cases r with
  | nil => rfl
  | cons mark r =>
    simp only [List.cons_append, cutNumber, exponentSign_break, takeDigits_break, dropDigits_break]
    split
    · split <;> rfl
    · rfl

/-- No symbol is longer than two characters. -/
theorem read?_two (c d : Char) (r : List Char) :
    Symbol.read? (c :: d :: r) = (Symbol.read? [c, d]).map fun p => (p.1, p.2 ++ r) := by
  rw [Symbol.read?.eq_def (c :: d :: r)]
  split
  case h_12 hequal hgreater heq =>
    cases heq
    have hd : d ≠ '=' := fun h => hequal r (h ▸ rfl)
    have hd' : d ≠ '>' := fun h => hgreater r (h ▸ rfl)
    simp [Symbol.read?, hd, hd']
  case h_13 hequal heq | h_14 hequal heq =>
    cases heq
    have hd : d ≠ '=' := fun h => hequal r (h ▸ rfl)
    simp [Symbol.read?, hd]
  case h_15 => simp_all [Symbol.read?]
  all_goals
    next heq =>
    cases heq
    rfl

/-- No symbol goes on with a line feed. -/
theorem read?_lineFeed (c : Char) :
    Symbol.read? [c, '\n'] = (Symbol.read? [c]).map fun p => (p.1, p.2 ++ ['\n']) := by
  rw [Symbol.read?.eq_def [c]]
  split <;> simp_all [Symbol.read?]

theorem read?_break (c : Char) (r : List Char) :
    Symbol.read? (c :: r ++ '\n' :: b) = (Symbol.read? (c :: r)).map fun p => (p.1, p.2 ++ '\n' :: b) := by
  cases r with
  | nil =>
    rw [List.singleton_append, read?_two, read?_lineFeed, Option.map_map]
    simp only [Function.comp_def, List.append_assoc, List.singleton_append]
  | cons d r =>
    rw [List.cons_append, List.cons_append, read?_two, read?_two c d r, Option.map_map]
    simp only [Function.comp_def, List.append_assoc]

/-- A lexeme is complete before a line feed. -/
theorem cut_break {c : Char} {r : List Char} (hcr : (c :: r).getLast? ≠ some '\r')
    (hcomment : (cut c r).kind ≠ .openComment) :
    cut c (r ++ '\n' :: b) = { cut c r with rest := (cut c r).rest ++ '\n' :: b } := by
  have hclosed : ¬ (c = '/' ∧ r.head? = some '*') := fun h => hcomment (by unfold cut; rw [if_pos h])
  have hclosed' : ¬ (c = '/' ∧ (r ++ '\n' :: b).head? = some '*') := by
    rintro ⟨hc, hhead⟩
    cases r with
    | nil => cases hhead
    | cons d r => exact hclosed ⟨hc, hhead⟩
  unfold cut
  rw [if_neg hclosed, if_neg hclosed', ← List.cons_append, mantissa?_break]
  cases mantissa? (c :: r) with
  | some p => exact cutNumber_break p.1 p.2
  | none =>
    simp only [Option.map_none]
    split
    · rw [takeWhile_break rfl, dropWhile_break rfl]
    · rw [read?_break]
      cases Symbol.read? (c :: r) with
      | some p => rfl
      | none =>
        simp only [Option.map_none]
        cases hbreak : lineBreak? (c :: r) with
        | some p => rw [lineBreak?_break hcr hbreak]; split <;> rfl
        | none => rw [lineBreak?_none hbreak]; split <;> rfl

theorem cut_lineFeed (b : List Char) : cut '\n' b = ⟨.newline, ['\n'], b⟩ := rfl

theorem blank?_lineFeed (b : List Char) : blank? ('\n' :: b) = none := rfl

/-- **The lexemes of a text, a newline, and the lexemes of what follows.** -/
theorem split_break (pos : Nat) {a : List Char} (hcr : a.getLast? ≠ some '\r')
    (h : ∀ l ∈ Lexeme.split pos a, l.kind ≠ .openComment ∧ l.kind ≠ .unknown) :
    Lexeme.split pos (a ++ '\n' :: b) = Lexeme.split pos a ++
      ⟨.newline, ['\n'], pos + byteLength a⟩ :: Lexeme.split (pos + byteLength a + 1) b := by
  fun_induction Lexeme.split pos a with
  | case1 pos cs used hblank =>
    have hall : used = cs := by simpa [hblank] using splitBlank_append cs
    have hwhole := splitBlank_break (b := b) hcr (by rw [hblank]; exact blank?_lineFeed b)
    rw [hblank, List.nil_append] at hwhole
    rw [Lexeme.split, hwhole, hall]
    simp only [cut_lineFeed, List.nil_append]
    rfl
  | case2 pos cs used c r hblank piece lexeme ih =>
    have hhead := h lexeme List.mem_cons_self
    have happend : used ++ c :: r = cs := by simpa [hblank] using splitBlank_append cs
    have hcr' : (c :: r).getLast? ≠ some '\r' := getLast?_suffix happend hcr
    have hnone : blank? (c :: r ++ '\n' :: b) = none := by
      refine blank?_none ?_ hhead.1 hhead.2
      have hafter := @blank?_after cs
      rwa [hblank] at hafter
    have hwhole := splitBlank_break (b := b) hcr (by rw [hblank]; exact hnone)
    have hpiece : piece.text ++ piece.rest = c :: r := Cut.text_append c r
    have hih := ih (getLast?_suffix hpiece hcr') fun l hl => h l (List.mem_cons_of_mem _ hl)
    have hlength : pos + byteLength cs = lexeme.stop + byteLength piece.rest := by
      rw [← happend, ← hpiece, byteLength_append, byteLength_append]
      simp only [lexeme, Lexeme.stop]
      omega
    rw [hblank, List.cons_append] at hwhole
    rw [Lexeme.split, hwhole, hlength]
    simp only [cut_break hcr' hhead.1]
    exact congrArg (lexeme :: ·) hih

/-! ## Tokens -/

theorem kind_of_ofLexeme {l : Lexeme} {t : Token} (h : Token.ofLexeme l = .ok t) :
    l.kind ≠ .openComment ∧ l.kind ≠ .unknown := by
  unfold Token.ofLexeme at h
  constructor <;> intro hkind <;> rw [hkind] at h <;> cases h

/-- Lexemes that make tokens are neither open comments nor unknown. -/
theorem kind_of_ofLexemes {after : Bool} {ls : List Lexeme} {ts : List Token} (h : Token.ofLexemes after ls = .ok ts) :
    ∀ l ∈ ls, l.kind ≠ .openComment ∧ l.kind ≠ .unknown := by
  fun_induction Token.ofLexemes after ls generalizing ts with
  | case1 => simp
  | case2 after l =>
    obtain ⟨t, ht, -⟩ := map_eq_ok h
    simpa using kind_of_ofLexeme ht
  | case3 after l next ls hjoin e he => cases h
  | case4 after l next ls hjoin t ht ih =>
    obtain ⟨us, hus, -⟩ := map_eq_ok h
    -- a sign is a symbol, and what it joins is a number
    have hsign : Token.isSign l = true ∧ next.kind = .number := by
      simp only [Token.joins, Bool.and_eq_true, beq_iff_eq] at hjoin
      exact ⟨hjoin.1.1.2, hjoin.1.2⟩
    have hl : l.kind ≠ .openComment ∧ l.kind ≠ .unknown := by
      constructor <;> intro hkind <;> simp [Token.isSign, hkind] at hsign
    have hnext : next.kind ≠ .openComment ∧ next.kind ≠ .unknown := by simp [hsign.2]
    simp only [List.forall_mem_cons]
    exact ⟨hl, hnext, ih hus⟩
  | case5 after l next ls hjoin e he => cases h
  | case6 after l next ls hjoin t ht ih =>
    obtain ⟨us, hus, -⟩ := map_eq_ok h
    rw [List.forall_mem_cons]
    exact ⟨kind_of_ofLexeme ht, ih hus⟩

/-- the token of a line feed at the byte `pos` -/
def newlineAt (pos : Nat) : Token := ⟨.newline, ⟨pos, pos + 1⟩⟩

/-- the lexeme of a line feed at the byte `pos` -/
def lineFeedAt (pos : Nat) : Lexeme := ⟨.newline, ['\n'], pos⟩

theorem joins_lineFeed (after : Bool) (l : Lexeme) (pos : Nat) : Token.joins after l (lineFeedAt pos) = false := by
  simp [Token.joins, lineFeedAt]

theorem ofLexemes_lineFeed (pos : Nat) (after : Bool) (bs : List Lexeme) :
    Token.ofLexemes after (lineFeedAt pos :: bs) = (Token.ofLexemes false bs).map (newlineAt pos :: ·) := by
  cases bs with
  | nil => rfl
  | cons l ls =>
    have hjoin : Token.joins after (lineFeedAt pos) l = false := by simp [Token.joins, Token.isSign, lineFeedAt]
    rw [Token.ofLexemes, hjoin]
    rfl

theorem map_map {ε α β γ : Type} (f : α → β) (g : β → γ) (x : Except ε α) : (x.map f).map g = x.map (g ∘ f) := by
  cases x <;> rfl

/-- The tokens of lexemes with a newline between them, or the fault of those after it. -/
theorem ofLexemes_break (pos : Nat) {after : Bool} {as : List Lexeme} (bs : List Lexeme) {ta : List Token}
    (ha : Token.ofLexemes after as = .ok ta) :
    Token.ofLexemes after (as ++ lineFeedAt pos :: bs) =
      (Token.ofLexemes false bs).map fun tb => ta ++ newlineAt pos :: tb := by
  fun_induction Token.ofLexemes after as generalizing ta with
  | case1 after => cases ha; exact ofLexemes_lineFeed pos after bs
  | case2 after l =>
    obtain ⟨t, ht, hta⟩ := map_eq_ok ha
    subst hta
    rw [List.singleton_append, Token.ofLexemes, joins_lineFeed, ht]
    simp only [Bool.false_eq_true, if_false, ofLexemes_lineFeed, map_map]
    rfl
  | case3 after l next ls hjoin e he => cases ha
  | case4 after l next ls hjoin t ht ih =>
    obtain ⟨us, hus, hta⟩ := map_eq_ok ha
    subst hta
    rw [List.cons_append, List.cons_append, Token.ofLexemes, if_pos hjoin, ht]
    simp only [ih hus, map_map]
    rfl
  | case5 after l next ls hjoin e he => cases ha
  | case6 after l next ls hjoin t ht ih =>
    obtain ⟨us, hus, hta⟩ := map_eq_ok ha
    subst hta
    rw [List.cons_append, List.cons_append, Token.ofLexemes, if_neg hjoin, ht]
    simp only [← List.cons_append, ih hus, map_map]
    rfl

/-- **The tokens of two texts with a line feed between them,** or the fault of the second, further on. -/
theorem ofChars_break {a : List Char} {ta : List Token} (hcr : a.getLast? ≠ some '\r') (ha : Token.ofChars a = .ok ta) :
    Token.ofChars (a ++ '\n' :: b) =
      (Shifting.lexed (byteLength a + 1) (List.map (Token.shift (byteLength a + 1))) (Token.ofChars b)).map
        fun tb => ta ++ newlineAt (byteLength a) :: tb := by
  have hsplit := split_break (b := b) 0 hcr (kind_of_ofLexemes ha)
  have hmoved := Shifting.split_shift (byteLength a + 1) 0 b
  rw [Nat.zero_add] at hmoved
  unfold Token.ofChars at ha ⊢
  rw [hsplit, Nat.zero_add, hmoved, ← Shifting.ofLexemes_shift]
  exact ofLexemes_break (byteLength a) _ ha

/-! ## Main result -/

/-- **Tokenising is compositional over line breaks.** If a text `a` has tokens and does not end in a carriage return, then
`a`, a line feed and any text `b` have the tokens of `a`, one newline where `a` ends, and the tokens of `b` moved past it;
if `b` has none, they have the fault of `b`, moved in the same way. -/
theorem tokenize_lines (a b : String) {ta : List Token} (ha : Token.tokenize a = .ok ta)
    (hcr : a.toList.getLast? ≠ some '\r') :
    (∀ tb, Token.tokenize b = .ok tb → Token.tokenize (a ++ "\n" ++ b) =
      .ok (ta ++ newlineAt (byteLength a.toList) :: tb.map (Token.shift (byteLength a.toList + 1)))) ∧
    (∀ e, Token.tokenize b = .error e → Token.tokenize (a ++ "\n" ++ b) =
      .error (e.shift (byteLength a.toList + 1))) := by
  have hwhole : Token.tokenize (a ++ "\n" ++ b) = Token.ofChars (a.toList ++ '\n' :: b.toList) := by
    have happend : (a ++ "\n" ++ b).toList = a.toList ++ '\n' :: b.toList := by simp
    rw [Token.tokenize, happend]
  have hbreak := ofChars_break (b := b.toList) hcr ha
  constructor
  · intro tb hb
    change Token.ofChars b.toList = .ok tb at hb
    rw [hwhole, hbreak, hb]
    rfl
  · intro e hb
    change Token.ofChars b.toList = .error e at hb
    rw [hwhole, hbreak, hb]
    rfl

/-- A comment ends with its line, and the sign at the start of the next line belongs to its number. A fault there is the
fault of that line. -/
theorem commented_lines :
    "x // y".toList.getLast? ≠ some '\r' ∧ ∃ ta tb e, Token.tokenize "x // y" = .ok ta ∧ Token.tokenize "-1" = .ok tb ∧
      Token.tokenize "1e" = .error e ∧
      Token.tokenize ("x // y" ++ "\n" ++ "-1") = .ok (ta ++ newlineAt 6 :: tb.map (Token.shift 7)) ∧
      Token.tokenize ("x // y" ++ "\n" ++ "1e") = .error (e.shift 7) := by
  have hcr : "x // y".toList.getLast? ≠ some '\r' := by decide +kernel
  obtain ⟨ta, ha⟩ := Readers.exists_of_isOk (x := Token.tokenize "x // y") (by decide +kernel)
  obtain ⟨tb, hb⟩ := Readers.exists_of_isOk (x := Token.tokenize "-1") (by decide +kernel)
  have hfault : (Token.tokenize "1e").isOk = false := by decide +kernel
  cases he : Token.tokenize "1e" with
  | ok ts =>
    rw [he] at hfault
    cases hfault
  | error e =>
    exact ⟨hcr, ta, tb, e, ha, hb, rfl, (tokenize_lines "x // y" "-1" ha hcr).1 tb hb,
      (tokenize_lines "x // y" "1e" ha hcr).2 e he⟩

end CurveScript.LineBreaks
