/-
Integer literals.

A run of digits that is no part of a float is one lexeme, and the lexer comes to it with the tokens of all lexemes
before it. If the last of these is a sign that touches the digits, and no operand stands before the sign, the sign is
taken back and becomes part of the literal. The literal is the integer that its text writes in decimals, or else the
text is refused as out of range. So the same digits may be read after one token and refused after another:
`9223372036854775808` is in range only with a minus of its own.

Results:
- `split_place`: each lexeme of a text, with what stands before it and after it.
- `ofLexemes_number`: the tokens where a number comes next, by induction on the lexemes before it.
- `written_read`: the literal of digits with or without a sign.
- `integers_read`: the theorem.
Witness: `least_read`.
-/
import CurveScript.Proofs.Munching

namespace CurveScript.WholeNumbers

open CurveScript.Words CurveScript.Munching CurveScript.Readers

/-! ## The place of a lexeme -/

/-- Two fronts of a text that take as many bytes are the same. -/
theorem front_unique {p q a b : List Char} (h : p ++ a = q ++ b) (hbytes : byteLength p = byteLength q) : p = q := by
  rcases List.append_eq_append_iff.1 h with ⟨t, rfl, -⟩ | ⟨t, rfl, -⟩
  all_goals
    rw [byteLength_append] at hbytes
    by_cases ht : t = []
    · simp [ht]
    · have := byteLength_pos ht
      omega

/-- Each lexeme is cut off where it stands, and the lexemes after it are those of the text after it. -/
theorem split_place {pos : Nat} {cs : List Char} {before ls : List Lexeme} {l : Lexeme}
    (h : Lexeme.split pos cs = before ++ l :: ls) :
    ∃ front c r, cs = front ++ c :: r ∧ l = ⟨(cut c r).kind, (cut c r).text, pos + byteLength front⟩ ∧
      ls = Lexeme.split l.stop (cut c r).rest := by
  induction before generalizing pos cs with
  | nil =>
    rcases hblank : splitBlank cs with ⟨b, f⟩
    have happ := splitBlank_append cs
    rw [hblank] at happ
    cases f with
    | nil => simp [split_nil hblank] at h
    | cons c r =>
      rw [split_cons hblank, List.nil_append, List.cons.injEq] at h
      obtain ⟨rfl, rfl⟩ := h
      exact ⟨b, c, r, happ.symm, rfl, rfl⟩
  | cons l' before ih =>
    rcases hblank : splitBlank cs with ⟨b, f⟩
    have happ := splitBlank_append cs
    rw [hblank] at happ
    cases f with
    | nil => simp [split_nil hblank] at h
    | cons c r =>
      rw [split_cons hblank, List.cons_append, List.cons.injEq] at h
      obtain ⟨front, c', r', hrest, hl, hls⟩ := ih h.2
      have hcut := Cut.text_append c r
      refine ⟨b ++ (cut c r).text ++ front, c', r', ?_, ?_, hls⟩
      · simp [← happ, ← hcut, hrest]
      · simp [hl, Nat.add_assoc]

/-! ## A number after the tokens so far -/

/-- the tokens of a text where the number `l` comes next: those that are kept, its own, and those after it -/
def numbered (kept : List Token) (l : Lexeme) (ls : List Lexeme) : Except LexError (List Token) :=
  match Token.ofLexeme l with
  | .error e => .error e
  | .ok t => (Token.ofLexemes true ls).map (kept ++ t :: ·)

theorem numbered_cons (t : Token) (kept : List Token) (l : Lexeme) (ls : List Lexeme) :
    (numbered kept l ls).map (t :: ·) = numbered (t :: kept) l ls := by
  unfold numbered
  cases Token.ofLexeme l with
  | error e => rfl
  | ok u => simp only [LineBreaks.map_map]; rfl

/-- the token is a sign that ends at the byte `pos` -/
def SignAt (pos : Nat) (t : Token) : Prop := ∃ s, t.kind = .symbol s ∧ s.isSign = true ∧ t.span.stop = pos

theorem not_signAt_number {pos : Nat} {t : Token} {n : Literal} (h : t.kind = .number n) : ¬ SignAt pos t := by
  rintro ⟨s, hs, -⟩
  rw [h] at hs
  cases hs

/-- The token of a sign is made by its lexeme. -/
theorem signAt_iff {pos : Nat} {l : Lexeme} {t : Token} (h : Token.ofLexeme l = .ok t) :
    SignAt pos t ↔ Token.isSign l = true ∧ l.stop = pos := by
  have hspan : t.span = l.span := span_ofLexeme h
  unfold SignAt
  rw [hspan]
  unfold Token.ofLexeme at h
  split at h
  case h_1 hkind =>
    obtain ⟨n, -, rfl⟩ := map_eq_ok h
    simp [Token.isSign, hkind]
  case h_3 hkind =>
    cases h
    simp only [Token.nameKind, Token.isSign, hkind]
    split <;> simp
  all_goals
    next hkind => cases h <;> simp [Token.isSign, hkind, Lexeme.span]

/-- A number never joins a number before it. -/
theorem not_joins_number {after : Bool} {l next : Lexeme} (h : l.kind = .number) :
    Token.joins after l next = false := by
  simp [Token.joins, Token.isSign, h]

theorem ofLexemes_cons_number (after : Bool) {l : Lexeme} (hl : l.kind = .number) (ls : List Lexeme) :
    Token.ofLexemes after (l :: ls) = numbered [] l ls := by
  cases ls with
  | nil =>
    rw [Token.ofLexemes, numbered]
    cases Token.ofLexeme l <;> rfl
  | cons next ls =>
    rw [Token.ofLexemes, not_joins_number hl, numbered]
    cases ht : Token.ofLexeme l with
    | error e => rfl
    | ok t =>
      simp only [Token.ofLexeme, hl] at ht
      obtain ⟨n, -, rfl⟩ := map_eq_ok ht
      rfl

theorem ofLexemes_ne_nil {after : Bool} {l : Lexeme} {ls : List Lexeme} {us : List Token}
    (h : Token.ofLexemes after (l :: ls) = .ok us) : us ≠ [] := by
  cases ls with
  | nil =>
    obtain ⟨t, -, rfl⟩ := map_eq_ok h
    simp
  | cons next ls =>
    rw [Token.ofLexemes] at h
    split at h
    all_goals
      split at h
      · cases h
      · obtain ⟨us', -, rfl⟩ := map_eq_ok h
        simp

/-- What `all` is where the number `l` and then `ls` come after the lexemes `before` with the tokens `us`. The number takes
the last token along if that is a sign which touches it, and no operand stands before the sign; otherwise it stands on
its own. -/
def Meets (after : Bool) (before : List Lexeme) (us : List Token) (l : Lexeme) (ls : List Lexeme)
    (all : Except LexError (List Token)) : Prop :=
  (∃ init sign kept t, before = init ++ [sign] ∧ us = kept ++ [t] ∧ Token.ofLexeme sign = .ok t ∧
    SignAt l.start t ∧ endsOperand after kept = false ∧ all = numbered kept (Token.signed sign l) ls) ∨
  ((∀ kept t, us = kept ++ [t] → SignAt l.start t → endsOperand after kept = true) ∧ all = numbered us l ls)

section Meeting

variable {after : Bool} {before : List Lexeme} {us : List Token} {l : Lexeme} {ls : List Lexeme} {t : Token}

/-- A token before all others changes nothing, unless it is the only one and a sign that touches the number. -/
theorem Meets.cons {after' : Bool} {all : Except LexError (List Token)} (h : Meets after' before us l ls all)
    (front : List Lexeme) (hends : ∀ kept, endsOperand after (t :: kept) = endsOperand after' kept)
    (honly : us = [] → ¬ SignAt l.start t) : Meets after (front ++ before) (t :: us) l ls (all.map (t :: ·)) := by
  rcases h with ⟨init, sign, kept, u, rfl, rfl, hu, hsign, hfree, rfl⟩ | ⟨hnone, rfl⟩
  · refine Or.inl ⟨front ++ init, sign, t :: kept, u, (List.append_assoc ..).symm, rfl, hu, hsign, ?_, ?_⟩
    · rw [hends, hfree]
    · rw [numbered_cons]
  · refine Or.inr ⟨fun kept u hu hsign => ?_, numbered_cons t us l ls⟩
    cases kept with
    | nil =>
      obtain ⟨rfl, hus⟩ := List.cons.inj hu
      exact absurd hsign (honly hus)
    | cons v kept =>
      obtain ⟨rfl, hlast⟩ := List.cons.inj hu
      rw [hends]
      exact hnone kept u hlast hsign

/-- A number right after one lexeme. -/
theorem meets_single {s : Lexeme} (hl : l.kind = .number) (ht : Token.ofLexeme s = .ok t) :
    Meets after [s] [t] l ls (Token.ofLexemes after (s :: l :: ls)) := by
  have hjoins : Token.joins after s l = true ↔ after = false ∧ SignAt l.start t := by
    simp [Token.joins, signAt_iff ht, hl, and_assoc]
  rw [Token.ofLexemes]
  by_cases hjoin : Token.joins after s l = true
  · obtain ⟨hafter, hsign⟩ := hjoins.1 hjoin
    rw [if_pos hjoin]
    exact Or.inl ⟨[], s, [], t, rfl, rfl, ht, hsign, hafter, rfl⟩
  · rw [if_neg hjoin, ht]
    refine Or.inr ⟨fun kept u hu hsign => ?_, ?_⟩
    · obtain ⟨rfl, rfl⟩ : kept = [] ∧ u = t := by
        cases kept <;> simp_all
      simpa [hsign, endsOperand] using mt hjoins.2 hjoin
    · simp only [ofLexemes_cons_number _ hl, numbered_cons]

/-- **A number after the tokens so far.** The induction is on the lexemes before the number. -/
theorem ofLexemes_number (hl : l.kind = .number) (h : Token.ofLexemes after before = .ok us) (ls : List Lexeme) :
    Meets after before us l ls (Token.ofLexemes after (before ++ l :: ls)) := by
  fun_induction Token.ofLexemes after before generalizing us with
  | case1 after =>
    cases h
    exact Or.inr ⟨by simp, ofLexemes_cons_number after hl ls⟩
  | case2 after s =>
    obtain ⟨t, ht, rfl⟩ := map_eq_ok h
    exact meets_single hl ht
  | case3 after s next rest hjoin e he => cases h
  | case4 after s next rest hjoin t ht ih =>
    -- the token of a signed number, after which an operand has ended
    obtain ⟨us, hus, rfl⟩ := map_eq_ok h
    obtain ⟨n, hn⟩ : ∃ n, t.kind = .number n := by
      obtain ⟨n, -, rfl⟩ := map_eq_ok ht
      exact ⟨n, rfl⟩
    have hends : ∀ kept, endsOperand after (t :: kept) = endsOperand true kept := by
      intro kept
      rw [endsOperand, hn]
      rfl
    rw [List.cons_append, List.cons_append, Token.ofLexemes, if_pos hjoin, ht]
    exact (ih hus).cons [s, next] hends fun _ => not_signAt_number hn
  | case5 after s next rest hjoin e he => cases h
  | case6 after s next rest hjoin t ht ih =>
    obtain ⟨us, hus, rfl⟩ := map_eq_ok h
    rw [List.cons_append, List.cons_append, Token.ofLexemes, if_neg hjoin, ht]
    exact (ih hus).cons [s] (fun _ => by rw [endsOperand, closesOperand_eq]) fun hnil => absurd hnil (ofLexemes_ne_nil hus)

end Meeting

/-! ## The literal -/

/-- the number that decimal digits write -/
def decimal (ds : List Char) : ℕ := Nat.ofDigits 10 (ds.reverse.map fun d => d.toNat - '0'.toNat)

/-- the number that decimal digits write with a sign in front, or with none -/
def written (sign ds : List Char) : ℤ := if sign = ['-'] then -decimal ds else decimal ds

/-- the integers of the language -/
def Fits (n : ℤ) : Prop := -2 ^ 63 ≤ n ∧ n ≤ 2 ^ 63 - 1

instance (n : ℤ) : Decidable (Fits n) := inferInstanceAs (Decidable (_ ∧ _))

theorem digitsValue_decimal (ds : List Char) : Double.digitsValue ds = decimal ds := by
  induction ds using List.reverseRecOn with
  | nil => rfl
  | append_singleton ds d ih =>
    have hleft : Double.digitsValue (ds ++ [d]) = 10 * Double.digitsValue ds + (d.toNat - '0'.toNat) := by
      simp [Double.digitsValue]
    have hright : decimal (ds ++ [d]) = (d.toNat - '0'.toNat) + 10 * decimal ds := by
      simp [decimal, Nat.ofDigits_cons]
    omega

section Literal

variable {sign ds : List Char} (hsign : Sign sign) (hdigits : ∀ d ∈ ds, d.isDigit = true)

include hsign hdigits

theorem writesFloat_written : writesFloat (sign ++ ds) = false := by
  have hds : ∀ d ∈ ds, (d == '.' || d == 'e' || d == 'E') = false := by
    intro d hd
    have hdigit := hdigits d hd
    rw [Bool.eq_false_iff]
    intro hmark
    simp only [Bool.or_eq_true, beq_iff_eq] at hmark
    rcases hmark with (rfl | rfl) | rfl <;> exact absurd hdigit (by decide)
  have hall : writesFloat ds = false := List.any_eq_false.2 fun d hd => by simp [hds d hd]
  cases hsign <;> simpa [writesFloat] using hall

theorem signedValue_written (hne : ds ≠ []) : signedValue (sign ++ ds) = written sign ds := by
  rw [written, ← digitsValue_decimal]
  cases hsign with
  | plus => rfl
  | minus => rfl
  | none =>
    obtain ⟨d, ds, rfl⟩ := List.exists_cons_of_ne_nil hne
    have hdigit := hdigits d List.mem_cons_self
    have hminus : d ≠ '-' := by rintro rfl; exact absurd hdigit (by decide)
    have hplus : d ≠ '+' := by rintro rfl; exact absurd hdigit (by decide)
    simp [signedValue, hminus, hplus]

/-- **The literal of digits**, with a sign or without: the integer that they write, or none if it is out of range. -/
theorem written_read (hne : ds ≠ []) (span : Span) :
    (Fits (written sign ds) → ∃ i : Int64, i.toInt = written sign ds ∧
      Literal.read (sign ++ ds) span = .ok (.integer i)) ∧
    (¬ Fits (written sign ds) →
      Literal.read (sign ++ ds) span = .error ⟨.numberOutOfRange (String.ofList (sign ++ ds)), span⟩) := by
  have hrange : Fits (written sign ds) ↔ Integer.InRange (written sign ds) := by
    unfold Fits Integer.InRange
    omega
  rw [Literal.read, writesFloat_written hsign hdigits, signedValue_written hsign hdigits hne, hrange]
  simp only [Bool.false_eq_true, if_false]
  constructor
  · intro h
    have hi : Integer.ofInt? (written sign ds) = some (Int64.ofInt (written sign ds)) := if_pos h
    exact ⟨_, Integer.toInt_of_ofInt? hi, by rw [hi]⟩
  · intro h
    have hnone : Integer.ofInt? (written sign ds) = none := if_neg h
    rw [hnone]

/-- The token of the literal, or its fault, where the number comes next. -/
theorem numbered_written (hne : ds ≠ []) (kept : List Token) (start : Nat) (ls : List Lexeme) :
    let span : Span := ⟨start, start + byteLength (sign ++ ds)⟩
    (Fits (written sign ds) → ∃ i : Int64, i.toInt = written sign ds ∧
      numbered kept ⟨.number, sign ++ ds, start⟩ ls =
        (Token.ofLexemes true ls).map (kept ++ ⟨.number (.integer i), span⟩ :: ·)) ∧
    (¬ Fits (written sign ds) → numbered kept ⟨.number, sign ++ ds, start⟩ ls =
      .error ⟨.numberOutOfRange (String.ofList (sign ++ ds)), span⟩) := by
  intro span
  have hlexeme : Token.ofLexeme ⟨.number, sign ++ ds, start⟩ =
      (Literal.read (sign ++ ds) span).map fun n => ⟨.number n, span⟩ := rfl
  obtain ⟨hfits, hnot⟩ := written_read hsign hdigits hne span
  rw [numbered, hlexeme]
  constructor
  · intro h
    obtain ⟨i, hi, hread⟩ := hfits h
    refine ⟨i, hi, ?_⟩
    rw [hread]
    rfl
  · intro h
    rw [hnot h]
    rfl

end Literal

/-! ## The places of digits and of their sign -/

section Places

variable {cs pre : List Char} {before ls : List Lexeme} {l : Lexeme}

/-- Digits that are no part of a float are cut off as a number. -/
theorem cut_digits {d : Char} {ds rest : List Char} (hdigits : ∀ c ∈ d :: ds, c.isDigit = true)
    (hstop : ∀ c, rest.head? = some c → c.isDigit = false ∧ c ≠ '.' ∧ c ≠ 'e' ∧ c ≠ 'E') :
    cut d (ds ++ rest) = ⟨.number, d :: ds, rest⟩ := by
  have hmantissa : mantissa? (d :: (ds ++ rest)) = some (d :: ds, rest) :=
    mantissa?_whole hdigits (List.cons_ne_nil d ds) fun c hc => ⟨(hstop c hc).1, (hstop c hc).2.1⟩
  rw [cut_mantissa hmantissa]
  cases rest with
  | nil => rfl
  | cons c r =>
    obtain ⟨-, -, he, hE⟩ := hstop c rfl
    simp [cutNumber, he, hE]

/-- The lexeme that starts where the digits do is the digits. -/
theorem digits_place {ds rest : List Char} (hcs : cs = pre ++ (ds ++ rest)) (hne : ds ≠ [])
    (hdigits : ∀ d ∈ ds, d.isDigit = true)
    (hstop : ∀ c, rest.head? = some c → c.isDigit = false ∧ c ≠ '.' ∧ c ≠ 'e' ∧ c ≠ 'E')
    (hsplit : Lexeme.split 0 cs = before ++ l :: ls) (hstart : l.start = byteLength pre) :
    l = ⟨.number, ds, byteLength pre⟩ ∧ ls = Lexeme.split (byteLength pre + byteLength ds) rest := by
  obtain ⟨d, ds, rfl⟩ := List.exists_cons_of_ne_nil hne
  obtain ⟨front, c, r, hfront, rfl, rfl⟩ := split_place hsplit
  rw [Nat.zero_add] at hstart
  obtain rfl : pre = front := front_unique (hcs.symm.trans hfront) hstart.symm
  rw [hcs, List.append_cancel_left_eq, List.cons_append, List.cons.injEq] at hfront
  obtain ⟨rfl, rfl⟩ := hfront
  simp only [Lexeme.stop, cut_digits hdigits hstop, Nat.zero_add, and_self]

/-- A sign that makes a token is one character. -/
theorem sign_cut {c : Char} {r : List Char} {pos : Nat} {t : Token}
    (hsign : Token.isSign ⟨(cut c r).kind, (cut c r).text, pos⟩ = true)
    (ht : Token.ofLexeme ⟨(cut c r).kind, (cut c r).text, pos⟩ = .ok t) :
    ∃ s, t.kind = .symbol s ∧ s.isSign = true ∧ Sign s.chars ∧ s.chars = [c] ∧ (cut c r).text = [c] := by
  have hc : isSign c = true := by
    cases hkind : (cut c r).kind with
    | symbol s => exact isSign_of_cut hkind (by simpa [Token.isSign, hkind] using hsign)
    | _ => simp [Token.isSign, hkind] at hsign
  rcases isSign_iff.1 hc with rfl | rfl
  · cases ht
    exact ⟨.plus, rfl, rfl, .plus, rfl, rfl⟩
  · cases ht
    exact ⟨.minus, rfl, rfl, .minus, rfl, rfl⟩

/-- A sign that ends where the digits start is the last character before them. -/
theorem sign_place {post : List Char} {sign : Lexeme} {t : Token} (hcs : cs = pre ++ post)
    (hsplit : Lexeme.split 0 cs = before ++ sign :: ls) (ht : Token.ofLexeme sign = .ok t)
    (hsign : SignAt (byteLength pre) t) :
    ∃ s front, t.kind = .symbol s ∧ s.isSign = true ∧ Sign s.chars ∧ pre = front ++ s.chars ∧
      sign.text = s.chars ∧ sign.start = byteLength front := by
  obtain ⟨front, c, r, hfront, rfl, -⟩ := split_place hsplit
  obtain ⟨hkind, hstop⟩ := (signAt_iff ht).1 hsign
  obtain ⟨s, hs, hissign, hword, hchars, htext⟩ := sign_cut hkind ht
  have hpre : pre = front ++ [c] := by
    have hboth : pre ++ post = front ++ [c] ++ r := by rw [← hcs, hfront, List.append_assoc, List.singleton_append]
    refine front_unique hboth ?_
    rw [← hstop, byteLength_append]
    simp only [Lexeme.stop, htext, Nat.zero_add]
  exact ⟨s, front, hs, hissign, hword, by rw [hpre, hchars], by rw [htext, hchars], Nat.zero_add _⟩

end Places

/-! ## Main result -/

/-- The lexer comes to a lexeme at the byte `pos` of the text, with the tokens `us` of all lexemes before it. -/
def Reaches (cs : List Char) (pos : Nat) (us : List Token) : Prop :=
  ∃ before l ls, Lexeme.split 0 cs = before ++ l :: ls ∧ l.start = pos ∧ Token.ofLexemes false before = .ok us

/-- What digits at the byte `pos` take from the tokens `us` before them: the tokens that are kept, and the sign. The
sign is the last token, if it is a sign, touches the digits, and what is before it does not end in an operand. -/
inductive Folds (pos : Nat) : List Token → List Token → List Char → Prop where
  | sign {kept : List Token} {t : Token} {s : Symbol} (hkind : t.kind = .symbol s) (hs : s.isSign = true)
      (htouch : t.span.stop = pos) (hfree : endsOperand false kept = false) : Folds pos (kept ++ [t]) kept s.chars
  | none {us : List Token} (h : ∀ kept t, us = kept ++ [t] → SignAt pos t → endsOperand false kept = true) :
      Folds pos us us []

/-- The tokens before digits decide which sign is taken. -/
theorem Folds.unique {pos : Nat} {us kept kept' : List Token} {sign sign' : List Char} (h : Folds pos us kept sign)
    (h' : Folds pos us kept' sign') : kept = kept' ∧ sign = sign' := by
  generalize hus : us = vs at h'
  cases h with
  | sign hkind hs htouch hfree =>
    cases h' with
    | sign hkind' =>
      obtain ⟨rfl, heq⟩ := List.append_inj' hus rfl
      cases heq
      rw [hkind] at hkind'
      cases hkind'
      exact ⟨rfl, rfl⟩
    | none hnone =>
      have hends := hnone _ _ hus.symm ⟨_, hkind, hs, htouch⟩
      rw [hfree] at hends
      cases hends
  | none hnone =>
    cases h' with
    | sign hkind hs htouch hfree =>
      have hends := hnone _ _ hus ⟨_, hkind, hs, htouch⟩
      rw [hfree] at hends
      cases hends
    | none => exact ⟨hus, rfl⟩

/-- **Integer literals are read exactly.** Let digits stand in a text, with no more digits, no point and no mark of an
exponent after them, and let the lexer come to the first of them with the tokens `us` of all that is before. Together
with the sign that they take from these tokens, if they take one, they write a number. If it is in range, they become
one token with this integer, which covers the sign and the digits, between the tokens that are kept and those of the
text after the digits. If it is not, the text has no tokens, and its fault names the sign and the digits and covers
them. -/
theorem integers_read (source : String) {pre ds rest : List Char} (hsource : source.toList = pre ++ (ds ++ rest))
    (hne : ds ≠ []) (hdigits : ∀ d ∈ ds, d.isDigit = true)
    (hstop : ∀ c, rest.head? = some c → c.isDigit = false ∧ c ≠ '.' ∧ c ≠ 'e' ∧ c ≠ 'E') {us : List Token}
    (hreach : Reaches source.toList (byteLength pre) us) :
    ∃ kept sign front, Folds (byteLength pre) us kept sign ∧ pre = front ++ sign ∧
      let span : Span := ⟨byteLength front, byteLength front + byteLength (sign ++ ds)⟩
      (Fits (written sign ds) → ∃ i : Int64, i.toInt = written sign ds ∧
        Token.tokenize source = (tokens true span.stop rest).map (kept ++ ⟨.number (.integer i), span⟩ :: ·)) ∧
      (¬ Fits (written sign ds) →
        Token.tokenize source = .error ⟨.numberOutOfRange (String.ofList (sign ++ ds)), span⟩) := by
  obtain ⟨before, l, ls, hsplit, hstart, hbefore⟩ := hreach
  obtain ⟨rfl, rfl⟩ := digits_place hsource hne hdigits hstop hsplit hstart
  set after := Lexeme.split (byteLength pre + byteLength ds) rest with hafter
  have htokens : Token.tokenize source = Token.ofLexemes false (before ++ ⟨.number, ds, byteLength pre⟩ :: after) :=
    congrArg (Token.ofLexemes false) hsplit
  have hnumber : (⟨.number, ds, byteLength pre⟩ : Lexeme).kind = .number := rfl
  rw [htokens]
  rcases ofLexemes_number hnumber hbefore after with
    ⟨init, sign, kept, t, rfl, rfl, ht, hsign, hfree, hall⟩ | ⟨hnone, hall⟩
  · -- the last token is taken back
    rw [List.append_assoc, List.singleton_append] at hsplit
    obtain ⟨s, front, hkind, hs, hword, rfl, htext, hplace⟩ := sign_place hsource hsplit ht hsign
    have htouch : t.span.stop = byteLength (front ++ s.chars) := by
      obtain ⟨-, -, -, htouch⟩ := hsign
      exact htouch
    have hlexeme : Token.signed sign ⟨.number, ds, byteLength (front ++ s.chars)⟩ =
        ⟨.number, s.chars ++ ds, byteLength front⟩ := by
      rw [Token.signed, htext, hplace]
    have hend : after = Lexeme.split (byteLength front + byteLength (s.chars ++ ds)) rest := by
      rw [hafter, byteLength_append, byteLength_append, Nat.add_assoc]
    refine ⟨kept, s.chars, front, .sign hkind hs htouch hfree, rfl, ?_⟩
    rw [hall, hlexeme, hend]
    exact numbered_written hword hdigits hne kept (byteLength front) _
  · refine ⟨us, [], pre, .none hnone, (List.append_nil pre).symm, ?_⟩
    rw [hall]
    exact numbered_written .none hdigits hne us (byteLength pre) after

/-- The least integer is read where the minus belongs to its digits. After an operand the minus does not, and the same
digits are out of range. -/
theorem least_read :
    Reaches "-9223372036854775808".toList 1 [⟨.symbol .minus, ⟨0, 1⟩⟩] ∧
    Reaches "x-9223372036854775808".toList 2 [⟨.name "x", ⟨0, 1⟩⟩, ⟨.symbol .minus, ⟨1, 2⟩⟩] ∧
    (∃ i : Int64, i.toInt = -2 ^ 63 ∧
      Token.tokenize "-9223372036854775808" = .ok [⟨.number (.integer i), ⟨0, 20⟩⟩]) ∧
    Token.tokenize "x-9223372036854775808" = .error ⟨.numberOutOfRange "9223372036854775808", ⟨2, 21⟩⟩ := by
  have hdigits : ∀ d ∈ "9223372036854775808".toList, d.isDigit = true := List.all_eq_true.1 (by decide +kernel)
  have hleast : Reaches "-9223372036854775808".toList 1 [⟨.symbol .minus, ⟨0, 1⟩⟩] :=
    ⟨[⟨.symbol .minus, ['-'], 0⟩], ⟨.number, "9223372036854775808".toList, 1⟩, [], by decide +kernel, rfl, rfl⟩
  have hbeyond : Reaches "x-9223372036854775808".toList 2 [⟨.name "x", ⟨0, 1⟩⟩, ⟨.symbol .minus, ⟨1, 2⟩⟩] :=
    ⟨[⟨.name, ['x'], 0⟩, ⟨.symbol .minus, ['-'], 1⟩], ⟨.number, "9223372036854775808".toList, 2⟩, [],
      by decide +kernel, rfl, rfl⟩
  refine ⟨hleast, hbeyond, ?_, ?_⟩
  · obtain ⟨kept, sign, front, hfolds, hpre, hread, -⟩ := @integers_read
      "-9223372036854775808" ['-'] _ [] rfl (by decide +kernel) hdigits nofun _ hleast
    have hminus : Folds 1 ([] ++ [⟨.symbol .minus, ⟨0, 1⟩⟩]) [] Symbol.minus.chars := .sign rfl rfl rfl rfl
    obtain ⟨rfl, rfl⟩ := hfolds.unique hminus
    obtain rfl : front = [] := by simpa [Symbol.chars] using hpre
    have hvalue : written Symbol.minus.chars "9223372036854775808".toList = -2 ^ 63 := by decide +kernel
    rw [hvalue] at hread
    obtain ⟨i, hi, htokens⟩ := hread (by decide)
    rw [tokens_nil (by decide +kernel : splitBlank [] = ([], []))] at htokens
    exact ⟨i, hi, htokens⟩
  · obtain ⟨kept, sign, front, hfolds, hpre, -, hrefused⟩ := @integers_read
      "x-9223372036854775808" ['x', '-'] _ [] rfl (by decide +kernel) hdigits nofun _ hbeyond
    have hnone : Folds 2 [⟨.name "x", ⟨0, 1⟩⟩, ⟨.symbol .minus, ⟨1, 2⟩⟩]
        [⟨.name "x", ⟨0, 1⟩⟩, ⟨.symbol .minus, ⟨1, 2⟩⟩] [] := by
      refine .none fun kept t hus _ => ?_
      obtain ⟨u, rfl⟩ : ∃ u, kept = [u] := List.length_eq_one_iff.1 (by simpa using congrArg List.length hus.symm)
      cases hus
      rfl
    obtain ⟨rfl, rfl⟩ := hfolds.unique hnone
    obtain rfl : front = ['x', '-'] := by simpa using hpre.symm
    have hvalue : written [] "9223372036854775808".toList = 2 ^ 63 := by decide +kernel
    rw [hvalue] at hrefused
    exact hrefused (by decide)

end CurveScript.WholeNumbers
