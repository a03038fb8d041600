/-
Words with a sign.

A sign that touches the digits after it is part of the number where no operand stands before it. `munch` takes the
lexeme at the front in this way.

Results:
- `Word.cases_sign`: a word has no sign, or is a sign and a number.
- `munch_cases`: how a text goes on. `munch` takes the longest word, except where a comment is opened, where no word is
  found, and where the number after a sign is malformed.
- `Longest.unique`: a place has one longest word, of one class.
-/
import CurveScript.Proofs.Words

namespace CurveScript.Words

open CurveScript.Blanks

/-- whether the character can be the sign of a number -/
def isSign (c : Char) : Bool := c == '+' || c == '-'

/-- the lexeme at the front, where a sign takes the number that it touches along unless it follows an operand -/
def munch (after : Bool) (c : Char) (r : List Char) : Cut :=
  match after, r with
  | false, d :: r' =>
    if isSign c ∧ (cut d r').kind = .number then ⟨.number, c :: (cut d r').text, (cut d r').rest⟩ else cut c r
  | _, _ => cut c r

/-- a sign that would take a number along, but for an exponent without digits -/
def Blocked (after : Bool) (c : Char) (r : List Char) : Prop :=
  after = false ∧ isSign c ∧ ∃ d r', r = d :: r' ∧ (cut d r').kind = .malformedNumber

theorem isSign_iff {c : Char} : isSign c = true ↔ c = '+' ∨ c = '-' := by simp [isSign]

section Signs

variable {after : Bool} {kind : LexemeKind} {c d : Char} {r w : List Char}

/-- A sign on its own is a symbol. -/
theorem cut_sign (h : isSign c = true) (r : List Char) : ∃ s, s.isSign = true ∧ cut c r = ⟨.symbol s, [c], r⟩ := by
  rcases isSign_iff.1 h with rfl | rfl
  · exact ⟨.plus, rfl, rfl⟩
  · exact ⟨.minus, rfl, rfl⟩

/-- The symbols that can be signs are cut off from signs only. -/
theorem isSign_of_cut {s : Symbol} (h : (cut c r).kind = .symbol s) (hs : s.isSign = true) : isSign c = true := by
  rcases cut_word true c r with ⟨r', rfl, rfl⟩ | hcut | ⟨-, hword⟩
  · cases h
  · rw [hcut] at h
    cases h
  · have happ := Cut.text_append c r
    rw [h] at hword
    generalize (cut c r).text = text at hword happ
    cases hword with
    | symbol s =>
      cases s with
      | plus | minus => cases happ; rfl
      | _ => cases hs

/-- Only a signed number differs from what is cut off. -/
theorem munch_cut_or_signed (after : Bool) (c : Char) (r : List Char) : munch after c r = cut c r ∨
    (after = false ∧ isSign c = true ∧ ∃ d r', r = d :: r' ∧ (cut d r').kind = .number ∧
      munch after c r = ⟨.number, c :: (cut d r').text, (cut d r').rest⟩) := by
  unfold munch
  split
  · next d r' =>
    split
    · next hc => exact .inr ⟨rfl, hc.1, d, r', rfl, hc.2, rfl⟩
    · exact .inl rfl
  · exact .inl rfl

theorem munch_append (after : Bool) (c : Char) (r : List Char) :
    (munch after c r).text ++ (munch after c r).rest = c :: r := by
  rcases munch_cut_or_signed after c r with h | ⟨-, -, d, r', rfl, -, h⟩
  · rw [h, Cut.text_append]
  · rw [h, List.cons_append, Cut.text_append]

theorem munch_ne_nil (after : Bool) (c : Char) (r : List Char) : (munch after c r).text ≠ [] := by
  rcases munch_cut_or_signed after c r with h | ⟨-, -, d, r', rfl, -, h⟩
  · rw [h]
    exact Cut.text_ne_nil c r
  · rw [h]
    exact List.cons_ne_nil _ _

theorem munch_of_not_sign (h : isSign c = false) : munch after c r = cut c r := by
  rcases munch_cut_or_signed after c r with hcut | ⟨-, hs, -⟩
  · exact hcut
  · rw [h] at hs
    cases hs

theorem munch_signed (hs : isSign c = true) (hkind : (cut d r).kind = .number) :
    munch false c (d :: r) = ⟨.number, c :: (cut d r).text, (cut d r).rest⟩ :=
  if_pos ⟨hs, hkind⟩

theorem Word.unsigned (h : Word true kind w) : Word after kind w := by
  cases h with
  | number hs hn h => exact .number hs hn fun _ => h rfl
  | malformed hs hn h => exact .malformed hs hn fun _ => h rfl
  | name hc hcs => exact .name hc hcs
  | symbol s => exact .symbol s
  | leftParen => exact .leftParen
  | rightParen => exact .rightParen
  | comma => exact .comma
  | semicolon => exact .semicolon
  | newline hb => exact .newline hb
  | openComment => exact .openComment

/-- A word has no sign, or is a sign and a number after no operand. -/
theorem Word.cases_sign (h : Word after kind w) : Word true kind w ∨
    (after = false ∧ ∃ s n, isSign s = true ∧ w = s :: n ∧ Word true kind n ∧
      (kind = .number ∨ kind = .malformedNumber)) := by
  cases h with
  | @number s n hs hn h =>
    have hword : Word true .number n := .number .none hn fun _ => rfl
    cases hs with
    | none => exact .inl hword
    | plus => exact .inr ⟨by simpa using h, '+', n, rfl, rfl, hword, .inl rfl⟩
    | minus => exact .inr ⟨by simpa using h, '-', n, rfl, rfl, hword, .inl rfl⟩
  | @malformed s n hs hn h =>
    have hword : Word true .malformedNumber n := .malformed .none hn fun _ => rfl
    cases hs with
    | none => exact .inl hword
    | plus => exact .inr ⟨by simpa using h, '+', n, rfl, rfl, hword, .inr rfl⟩
    | minus => exact .inr ⟨by simpa using h, '-', n, rfl, rfl, hword, .inr rfl⟩
  | name hc hcs => exact .inl (.name hc hcs)
  | symbol s => exact .inl (.symbol s)
  | leftParen => exact .inl .leftParen
  | rightParen => exact .inl .rightParen
  | comma => exact .inl .comma
  | semicolon => exact .inl .semicolon
  | newline hb => exact .inl (.newline hb)
  | openComment => exact .inl .openComment

theorem Word.isNumber (h : Word true .number w) : Number w := by
  cases h with
  | number _ hn h =>
    cases h rfl
    exact hn

theorem Word.isMalformed (h : Word true .malformedNumber w) : Malformed w := by
  cases h with
  | malformed _ hn h =>
    cases h rfl
    exact hn

/-- the numbers among the words without a sign -/
theorem Word.number_of_kind (h : Word true kind w) (hkind : kind = .number ∨ kind = .malformedNumber) :
    Number w ∨ Malformed w := by
  rcases hkind with rfl | rfl
  · exact .inl h.isNumber
  · exact .inr h.isMalformed

theorem Word.signed {s : Char} {n : List Char} (hs : isSign s = true) (h : Word true kind n)
    (hkind : kind = .number ∨ kind = .malformedNumber) : Word false kind (s :: n) := by
  have hsign : Sign [s] := by
    rcases isSign_iff.1 hs with rfl | rfl
    · exact .plus
    · exact .minus
  rcases hkind with rfl | rfl
  · exact .number hsign h.isNumber nofun
  · exact .malformed hsign h.isMalformed nofun

/-- What a signed number at the front says about the text after its sign. -/
theorem kind_of_signed {n : List Char} (h : Word true kind n) (hkind : kind = .number ∨ kind = .malformedNumber)
    (hn : n <+: r) : ∃ d r', r = d :: r' ∧ ((cut d r').kind = .number ∨ (cut d r').kind = .malformedNumber) := by
  obtain ⟨t, rfl⟩ := hn
  obtain ⟨m, r', hread, -⟩ := length_le_number (t := t) (h.number_of_kind hkind)
  cases htext : n ++ t with
  | nil =>
    rw [htext] at hread
    cases hread
  | cons d r'' =>
    rw [htext] at hread
    refine ⟨d, r'', rfl, ?_⟩
    rw [cut_mantissa hread]
    exact (cutNumber_word (mantissa?_mantissa hread) r').imp And.left And.left

/-- Where no signed number starts, a word is one without a sign. -/
theorem Longest.of_unsigned (h : Longest true (c :: r) kind w)
    (hnone : after = false → isSign c = true → ∀ d r', r = d :: r' → (cut d r').kind ≠ .number ∧
      (cut d r').kind ≠ .malformedNumber) : Longest after (c :: r) kind w := by
  refine ⟨h.word.unsigned, h.starts, fun kind' w' hw' hstarts => ?_⟩
  rcases hw'.cases_sign with hw' | ⟨hafter, s, n, hs, rfl, hn, hkind⟩
  · exact h.longest kind' w' hw' hstarts
  · obtain ⟨t, ht⟩ := hstarts
    cases ht
    obtain ⟨d, r', hr, hcut⟩ := kind_of_signed hn hkind ⟨t, rfl⟩
    obtain ⟨hnumber, hmalformed⟩ := hnone hafter hs d r' hr
    exact (hcut.elim hnumber hmalformed).elim

/-- A sign and the longest number after it are the longest word. -/
theorem Longest.signed (hs : isSign c = true)
    (hkind : (cut d r).kind = .number ∨ (cut d r).kind = .malformedNumber) :
    Longest false (c :: d :: r) (cut d r).kind (c :: (cut d r).text) := by
  have hlongest : Longest true (d :: r) (cut d r).kind (cut d r).text := by
    refine cut_longest ?_ ?_ <;> rcases hkind with hkind | hkind <;> simp [hkind]
  obtain ⟨s, -, hcut⟩ := cut_sign hs (d :: r)
  refine ⟨.signed hs hlongest.word hkind, ?_, fun kind' w' hw' hstarts => ?_⟩
  · exact (List.prefix_cons_inj c).2 hlongest.starts
  · rcases hw'.cases_sign with hw' | ⟨-, s', n, -, rfl, hn, -⟩
    · have hle := (length_le_cut hw' hstarts).2
      rw [hcut] at hle
      simp only [List.length_cons, List.length_nil] at hle ⊢
      omega
    · obtain ⟨t, ht⟩ := hstarts
      have hle := hlongest.longest kind' n hn ⟨t, (List.cons.inj ht).2⟩
      simpa using hle

/-- **How a text goes on.** A comment is opened, no word is found, a sign touches a malformed number, or the longest
word is taken. -/
theorem munch_cases (after : Bool) (c : Char) (r : List Char) :
    (∃ r', c = '/' ∧ r = '*' :: r') ∨
    (munch after c r = ⟨.unknown, [c], r⟩ ∧ ∀ kind w, Word after kind w → ¬ w <+: c :: r) ∨
    (Blocked after c r ∧ ∃ w, Longest after (c :: r) .malformedNumber w) ∨
    ((munch after c r).kind ≠ .openComment ∧ Longest after (c :: r) (munch after c r).kind (munch after c r).text) := by
  by_cases hopen : (cut c r).kind = .openComment
  · rcases cut_word true c r with h | hcut | ⟨hne, -⟩
    · exact .inl h
    · rw [hcut] at hopen
      cases hopen
    · exact absurd hopen hne
  by_cases hunknown : (cut c r).kind = .unknown
  · -- a sign is no unknown character, so no word has one here
    have hsign : isSign c = false := by
      rw [Bool.eq_false_iff]
      intro hs
      obtain ⟨s, -, hcut⟩ := cut_sign hs r
      rw [hcut] at hunknown
      cases hunknown
    obtain ⟨hcut, hnone⟩ := no_word hunknown
    refine .inr (.inl ⟨(munch_of_not_sign hsign).trans hcut, fun kind w hw hstarts => ?_⟩)
    rcases hw.cases_sign with hw | ⟨-, s, n, hs, rfl, -⟩
    · exact hnone kind w hw hstarts
    · obtain ⟨t, ht⟩ := hstarts
      cases ht
      rw [hsign] at hs
      cases hs
  have hlongest := cut_longest hopen hunknown
  by_cases hjoin : after = false ∧ isSign c = true ∧ ∃ d r', r = d :: r' ∧
      ((cut d r').kind = .number ∨ (cut d r').kind = .malformedNumber)
  · obtain ⟨rfl, hs, d, r', rfl, hkind⟩ := hjoin
    have hsigned := Longest.signed hs hkind
    rcases hkind with hkind | hkind
    · rw [hkind] at hsigned
      rw [munch_signed hs hkind]
      exact .inr (.inr (.inr ⟨nofun, hsigned⟩))
    · rw [hkind] at hsigned
      exact .inr (.inr (.inl ⟨⟨rfl, hs, d, r', rfl, hkind⟩, _, hsigned⟩))
  · have hnone : after = false → isSign c = true → ∀ d r', r = d :: r' → (cut d r').kind ≠ .number ∧
        (cut d r').kind ≠ .malformedNumber := fun hafter hs d r' hr =>
      ⟨fun h => hjoin ⟨hafter, hs, d, r', hr, .inl h⟩, fun h => hjoin ⟨hafter, hs, d, r', hr, .inr h⟩⟩
    have hmunch : munch after c r = cut c r := by
      rcases munch_cut_or_signed after c r with h | ⟨hafter, hs, d, r', hr, hkind, -⟩
      · exact h
      · exact absurd hkind (hnone hafter hs d r' hr).1
    rw [hmunch]
    exact .inr (.inr (.inr ⟨hopen, hlongest.of_unsigned hnone⟩))

theorem Word.ne_nil (h : Word after kind w) : w ≠ [] := by
  cases h with
  | number _ hn =>
    obtain ⟨t, d, rfl, -⟩ := hn.last
    simp
  | malformed _ hn =>
    obtain ⟨t, d, rfl, -⟩ := hn.last
    simp
  | symbol s => exact CurveScript.Symbol.chars_ne_nil s
  | newline hb => cases hb <;> simp
  | _ => simp

/-- A word without a sign that starts with one is the sign alone. -/
theorem Word.eq_sign {s : Char} {n : List Char} (h : Word true kind (s :: n)) (hs : isSign s = true) : n = [] := by
  obtain ⟨s', -, hcut⟩ := cut_sign hs n
  have hle := (length_le_cut h (List.prefix_refl _)).2
  rw [hcut] at hle
  exact List.length_eq_zero_iff.1 (by simpa using hle)

/-- A word has one class. -/
theorem Word.kind_unique {kind' : LexemeKind} (h : Word after kind w) (h' : Word after kind' w) : kind = kind' := by
  have hself : ∀ {k k' : LexemeKind} {n : List Char}, Word true k n → Word true k' n → k = k' := by
    intro k k' n hn hn'
    obtain ⟨c, t, rfl⟩ := List.exists_cons_of_ne_nil hn.ne_nil
    exact hn.cut_self.symm.trans hn'.cut_self
  rcases h.cases_sign with hw | ⟨-, s, n, hs, rfl, hn, -⟩
  · rcases h'.cases_sign with hw' | ⟨-, s, n, hs, rfl, hn, -⟩
    · exact hself hw hw'
    · exact absurd (hw.eq_sign hs) hn.ne_nil
  · rcases h'.cases_sign with hw' | ⟨-, s', n', hs', heq, hn', -⟩
    · exact absurd (hw'.eq_sign hs) hn.ne_nil
    · cases heq
      exact hself hn hn'

/-- A place has one longest word. -/
theorem Longest.unique {cs w' : List Char} {kind' : LexemeKind} (h : Longest after cs kind w)
    (h' : Longest after cs kind' w') : kind = kind' ∧ w = w' := by
  have hlength : w.length = w'.length :=
    Nat.le_antisymm (h'.longest kind w h.word h.starts) (h.longest kind' w' h'.word h'.starts)
  obtain ⟨t, ht⟩ := h.starts
  obtain ⟨t', ht'⟩ := h'.starts
  obtain ⟨hw, -⟩ := List.append_inj (ht.trans ht'.symm) hlength
  subst hw
  exact ⟨h.word.kind_unique h'.word, rfl⟩

end Signs

end CurveScript.Words
