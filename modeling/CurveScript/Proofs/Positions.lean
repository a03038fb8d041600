/-
Lines and columns count the line breaks that were passed.

A line break is a carriage return with its line feed, a carriage return that no line feed follows, or a line feed that
no carriage return precedes. An offset stands for the most characters that end at or before it. Its line is one more
than the breaks that end among them, and its column one more than the characters after the last of these breaks.

There is one exception. Between a carriage return and its line feed no break has ended, but the text before the offset
ends with a carriage return that nothing follows any more, so the line is one too high there and the column is 1.

Results:
- `endsAt_iff`: a break ends behind a line feed, and behind a carriage return that no line feed follows.
- `advance_line`, `advance_column`: reading a text, in terms of its own breaks, by induction on the text.
- `endsAt_take`, `count_take`: a text that is cut off has the breaks of the whole text, and one more inside a pair.
- `passed_textBefore`: what comes before an offset.
- `breaks_counted`: the line and the column of every offset of every text.
Refutation: `pair_split`, the offset inside of a pair.
-/
import Mathlib.Data.Nat.Count
import CurveScript.Span

namespace CurveScript.Positions

/-! ## Line breaks -/

/-- the characters from one position up to another are a line break of the text -/
inductive Break (text : List Char) : Nat → Nat → Prop where
  | pair {i} (hcr : text[i]? = some '\r') (hlf : text[i + 1]? = some '\n') : Break text i (i + 2)
  | loneReturn {i} (hcr : text[i]? = some '\r') (hlf : text[i + 1]? ≠ some '\n') : Break text i (i + 1)
  | loneFeed {i} (hlf : text[i]? = some '\n') (hcr : ∀ j, i = j + 1 → text[j]? ≠ some '\r') : Break text i (i + 1)

/-- a line break of the text ends at the position -/
def EndsAt (text : List Char) (stop : Nat) : Prop := ∃ first, Break text first stop

/-- A break ends behind a line feed, and behind a carriage return that no line feed follows. -/
theorem endsAt_iff {text : List Char} {stop : Nat} : EndsAt text stop ↔
    ∃ i, stop = i + 1 ∧ (text[i]? = some '\n' ∨ text[i]? = some '\r' ∧ text[i + 1]? ≠ some '\n') := by
  constructor
  · rintro ⟨first, hbreak⟩
    cases hbreak with
    | pair hcr hlf => exact ⟨first + 1, rfl, Or.inl hlf⟩
    | loneReturn hcr hlf => exact ⟨first, rfl, Or.inr ⟨hcr, hlf⟩⟩
    | loneFeed hlf hcr => exact ⟨first, rfl, Or.inl hlf⟩
  · rintro ⟨i, rfl, hlf | ⟨hcr, hlf⟩⟩
    · -- the line feed belongs to a pair, or it stands alone
      by_cases hpair : ∃ j, i = j + 1 ∧ text[j]? = some '\r'
      · obtain ⟨j, rfl, hcr⟩ := hpair
        exact ⟨j, .pair hcr hlf⟩
      · exact ⟨i, .loneFeed hlf fun j hj hcr => hpair ⟨j, hj, hcr⟩⟩
    · exact ⟨i, .loneReturn hcr hlf⟩

theorem not_endsAt_zero (text : List Char) : ¬ EndsAt text 0 := by
  rw [endsAt_iff]
  rintro ⟨i, hi, -⟩
  omega

theorem endsAt_succ {text : List Char} {i : Nat} : EndsAt text (i + 1) ↔
    text[i]? = some '\n' ∨ text[i]? = some '\r' ∧ text[i + 1]? ≠ some '\n' := by
  rw [endsAt_iff]
  constructor
  · rintro ⟨j, hj, h⟩
    cases hj
    exact h
  · exact fun h => ⟨i, rfl, h⟩

instance (text : List Char) : DecidablePred (EndsAt text)
  | 0 => isFalse (not_endsAt_zero text)
  | _ + 1 => decidable_of_iff _ endsAt_succ.symm

theorem endsAt_cons_succ {c : Char} {cs : List Char} {i : Nat} : EndsAt (c :: cs) (i + 2) ↔ EndsAt cs (i + 1) := by
  rw [endsAt_succ, endsAt_succ]
  rfl

/-- whether a break ends behind the first of the characters -/
abbrev Closes (c : Char) (cs : List Char) : Prop := c = '\n' ∨ c = '\r' ∧ cs[0]? ≠ some '\n'

theorem endsAt_cons_one {c : Char} {cs : List Char} : EndsAt (c :: cs) 1 ↔ Closes c cs := by
  rw [endsAt_succ]
  simp

/-- the number of breaks that end within a text -/
abbrev breaks (text : List Char) : Nat := Nat.count (EndsAt text) (text.length + 1)

theorem breaks_nil : breaks [] = 0 := by
  simp [Nat.count_succ, not_endsAt_zero]

theorem breaks_cons (c : Char) (cs : List Char) : breaks (c :: cs) = breaks cs + if Closes c cs then 1 else 0 := by
  have hfirst : (if EndsAt (c :: cs) (0 + 1) then 1 else 0) = if Closes c cs then 1 else 0 :=
    if_congr endsAt_cons_one rfl rfl
  rw [breaks, breaks, List.length_cons, Nat.count_succ', if_neg (not_endsAt_zero _), Nat.count_succ', hfirst,
    Nat.count_succ' _ cs.length, if_neg (not_endsAt_zero _)]
  simp only [endsAt_cons_succ]
  omega

/-! ## Reading a text -/

/-- One character: a carriage return before a line feed changes nothing, since the pair counts at its line feed. -/
theorem advance_cons (line column : Nat) (c : Char) (cs : List Char) : advancePosition line column (c :: cs) =
    if Closes c cs then advancePosition (line + 1) 1 cs
    else if c = '\r' then advancePosition line column cs
    else advancePosition line (column + 1) cs := by
  by_cases hfeed : c = '\n'
  · subst hfeed
    rw [if_pos (Or.inl rfl)]
    rfl
  by_cases hreturn : c = '\r'
  · subst hreturn
    cases cs with
    | nil => rfl
    | cons d ds =>
      by_cases hd : d = '\n'
      · subst hd
        rfl
      · have hcloses : Closes '\r' (d :: ds) := Or.inr ⟨rfl, by simpa using hd⟩
        rw [if_pos hcloses, advancePosition]
        rintro _ ⟨⟩
        exact hd rfl
  · have hcloses : ¬ Closes c cs := by
      rintro (h | ⟨h, -⟩)
      · exact hfeed h
      · exact hreturn h
    rw [if_neg hcloses, if_neg hreturn, advancePosition]
    · exact fun _ h _ => hreturn h
    · exact hreturn
    · exact hfeed

/-- **The line** grows by the number of breaks. -/
theorem advance_line (line column : Nat) (text : List Char) :
    (advancePosition line column text).1 = line + breaks text := by
  induction text generalizing line column with
  | nil => rw [breaks_nil]; rfl
  | cons c cs ih =>
    rw [advance_cons, breaks_cons]
    split
    · rw [ih]; omega
    · split
      · rw [ih]; omega
      · rw [ih]; omega

/-- the last position up to the end of the text at which a break ends, or else its start -/
structure LastEnd (text : List Char) (last : Nat) : Prop where
  le_length : last ≤ text.length
  ends : last = 0 ∨ EndsAt text last
  none_after : ∀ k, last < k → k ≤ text.length → ¬ EndsAt text k

theorem LastEnd.cons {c : Char} {cs : List Char} {last : Nat} (h : LastEnd cs last) (hlast : last ≠ 0) :
    LastEnd (c :: cs) (last + 1) := by
  obtain ⟨i, rfl⟩ := Nat.exists_eq_succ_of_ne_zero hlast
  refine ⟨Nat.succ_le_succ h.le_length, Or.inr (endsAt_cons_succ.2 (h.ends.resolve_left hlast)), ?_⟩
  intro k hk hlength
  obtain ⟨j, rfl⟩ : ∃ j, k = j + 2 := ⟨k - 2, by omega⟩
  rw [endsAt_cons_succ]
  exact h.none_after _ (by omega) (Nat.le_of_succ_le_succ hlength)

/-- A break behind the first character alone. -/
theorem LastEnd.first {c : Char} {cs : List Char} (h : LastEnd cs 0) (hcloses : Closes c cs) :
    LastEnd (c :: cs) 1 := by
  refine ⟨Nat.le_add_left 1 _, Or.inr (endsAt_cons_one.2 hcloses), ?_⟩
  intro k hk hlength
  obtain ⟨j, rfl⟩ : ∃ j, k = j + 2 := ⟨k - 2, by omega⟩
  rw [endsAt_cons_succ]
  exact h.none_after _ (by omega) (Nat.le_of_succ_le_succ hlength)

theorem LastEnd.start {c : Char} {cs : List Char} (h : LastEnd cs 0) (hcloses : ¬ Closes c cs) :
    LastEnd (c :: cs) 0 := by
  refine ⟨Nat.zero_le _, Or.inl rfl, ?_⟩
  intro k hk hlength
  rcases Nat.lt_or_ge k 2 with hone | htwo
  · obtain rfl : k = 1 := by omega
    rwa [endsAt_cons_one]
  · obtain ⟨j, rfl⟩ : ∃ j, k = j + 2 := ⟨k - 2, by omega⟩
    rw [endsAt_cons_succ]
    exact h.none_after _ (by omega) (Nat.le_of_succ_le_succ hlength)

/-- **The column** counts on from where it was, or from 1 behind the last break. -/
theorem advance_column (line column : Nat) (text : List Char) : ∃ last, LastEnd text last ∧
    (advancePosition line column text).2 = (if last = 0 then column else 1) + (text.length - last) := by
  induction text generalizing line column with
  | nil => exact ⟨0, ⟨Nat.le_refl _, Or.inl rfl, fun k hk hlength => by simp at hlength; omega⟩, rfl⟩
  | cons c cs ih =>
    rw [advance_cons]
    split
    · next hcloses =>
      obtain ⟨last, hlast, hcolumn⟩ := ih (line + 1) 1
      by_cases hzero : last = 0
      · subst hzero
        refine ⟨1, hlast.first hcloses, ?_⟩
        rw [hcolumn]
        simp
      · refine ⟨last + 1, hlast.cons hzero, ?_⟩
        rw [hcolumn, if_neg hzero, if_neg (Nat.succ_ne_zero last)]
        simp
    · next hcloses =>
      split
      · next hreturn =>
        -- the line feed of the pair is still to come, so a break ends in the rest
        obtain ⟨last, hlast, hcolumn⟩ := ih line column
        have hfeed : cs[0]? = some '\n' := by
          by_contra h
          exact hcloses (Or.inr ⟨hreturn, h⟩)
        have hnonempty : 0 < cs.length := (List.getElem?_eq_some_iff.1 hfeed).1
        have hzero : last ≠ 0 := by
          rintro rfl
          exact hlast.none_after 1 (by omega) hnonempty (endsAt_succ.2 (Or.inl hfeed))
        refine ⟨last + 1, hlast.cons hzero, ?_⟩
        rw [hcolumn, if_neg hzero, if_neg (Nat.succ_ne_zero last)]
        simp
      · obtain ⟨last, hlast, hcolumn⟩ := ih line (column + 1)
        by_cases hzero : last = 0
        · subst hzero
          refine ⟨0, hlast.start hcloses, ?_⟩
          rw [hcolumn]
          simp only [if_true, List.length_cons]
          omega
        · refine ⟨last + 1, hlast.cons hzero, ?_⟩
          rw [hcolumn, if_neg hzero, if_neg (Nat.succ_ne_zero last)]
          simp

/-! ## A text that is cut off -/

/-- the position is between a carriage return and its line feed -/
def InsidePair (text : List Char) (p : Nat) : Prop := ∃ i, p = i + 1 ∧ text[i]? = some '\r' ∧ text[p]? = some '\n'

instance (text : List Char) (p : Nat) : Decidable (InsidePair text p) :=
  match p with
  | 0 => isFalse (by rintro ⟨i, hi, -⟩; omega)
  | i + 1 => decidable_of_iff (text[i]? = some '\r' ∧ text[i + 1]? = some '\n')
      ⟨fun h => ⟨i, rfl, h⟩, fun ⟨j, hj, h⟩ => by cases hj; exact h⟩

/-- The breaks of a text that is cut off are those of the whole text, except where the cut splits a pair. -/
theorem endsAt_take {text : List Char} {p k : Nat} (hk : k ≤ p) :
    EndsAt (text.take p) k ↔ EndsAt text k ∨ k = p ∧ InsidePair text p := by
  cases k with
  | zero =>
    have hinside : ¬ (0 = p ∧ InsidePair text p) := by
      rintro ⟨rfl, i, hi, -⟩
      omega
    simp [not_endsAt_zero, hinside]
  | succ i =>
    rw [endsAt_succ, endsAt_succ, List.getElem?_take_of_lt hk]
    rcases Nat.lt_or_eq_of_le hk with hlt | rfl
    · have hne : i + 1 ≠ p := by omega
      simp [List.getElem?_take_of_lt hlt, hne]
    · have hend : (text.take (i + 1))[i + 1]? = none := List.getElem?_take_eq_none (Nat.le_refl _)
      have hinside : InsidePair text (i + 1) ↔ text[i]? = some '\r' ∧ text[i + 1]? = some '\n' :=
        ⟨fun ⟨j, hj, h⟩ => by cases hj; exact h, fun h => ⟨i, rfl, h⟩⟩
      rw [hend, hinside]
      by_cases hlf : text[i + 1]? = some '\n' <;> simp [hlf]

theorem not_endsAt_of_inside {text : List Char} {p : Nat} (h : InsidePair text p) : ¬ EndsAt text p := by
  obtain ⟨i, rfl, hcr, hlf⟩ := h
  rw [endsAt_succ, hcr]
  simp [hlf]

/-- **A cut inside of a pair adds a break.** -/
theorem count_take {text : List Char} {p : Nat} (hp : p ≤ text.length) :
    breaks (text.take p) = Nat.count (EndsAt text) (p + 1) + if InsidePair text p then 1 else 0 := by
  have hbefore : Nat.count (EndsAt (text.take p)) p = Nat.count (EndsAt text) p := by
    rw [Nat.count_eq_card_filter_range, Nat.count_eq_card_filter_range]
    refine congrArg Finset.card (Finset.filter_congr fun k hk => ?_)
    have hlt : k < p := Finset.mem_range.1 hk
    rw [endsAt_take (Nat.le_of_lt hlt)]
    exact or_iff_left fun h => absurd h.1 (Nat.ne_of_lt hlt)
  rw [breaks, List.length_take_of_le hp, Nat.count_succ, Nat.count_succ, hbefore]
  by_cases hinside : InsidePair text p
  · rw [if_pos ((endsAt_take (Nat.le_refl p)).2 (Or.inr ⟨rfl, hinside⟩)), if_neg (not_endsAt_of_inside hinside),
      if_pos hinside]
  · have hsame : EndsAt (text.take p) p ↔ EndsAt text p := by
      rw [endsAt_take (Nat.le_refl p)]
      exact or_iff_left fun h => hinside h.2
    rw [if_congr hsame rfl rfl, if_neg hinside]
    omega

/-! ## Offsets -/

/-- the number of characters that end at or before a byte offset: an offset behind the text is moved back to its end,
and one inside of a character to the start of this character -/
structure Passed (text : List Char) (offset p : Nat) : Prop where
  le_length : p ≤ text.length
  fits : byteLength (text.take p) ≤ offset
  most : ∀ k ≤ text.length, byteLength (text.take k) ≤ offset → k ≤ p

/-- The text before an offset consists of the characters that end at or before it. -/
theorem passed_textBefore (offset : Nat) (text : List Char) :
    ∃ p, Passed text offset p ∧ textBefore offset text = text.take p := by
  induction text generalizing offset with
  | nil => exact ⟨0, ⟨Nat.le_refl 0, Nat.zero_le _, fun k hk _ => hk⟩, rfl⟩
  | cons c cs ih =>
    rw [textBefore]
    split
    · next hfits =>
      obtain ⟨p, hp, htext⟩ := ih (offset - c.utf8Size)
      refine ⟨p + 1, ⟨Nat.succ_le_succ hp.le_length, ?_, ?_⟩, ?_⟩
      · have := hp.fits
        rw [List.take_succ_cons, byteLength]
        omega
      · intro k hk hbytes
        cases k with
        | zero => exact Nat.zero_le _
        | succ k =>
          rw [List.take_succ_cons, byteLength] at hbytes
          exact Nat.succ_le_succ (hp.most k (Nat.le_of_succ_le_succ hk) (by omega))
      · rw [htext, List.take_succ_cons]
    · next hfits =>
      refine ⟨0, ⟨Nat.zero_le _, Nat.zero_le _, ?_⟩, rfl⟩
      intro k hk hbytes
      cases k with
      | zero => exact Nat.le_refl 0
      | succ k =>
        rw [List.take_succ_cons, byteLength] at hbytes
        omega

/-! ## Main result -/

/-- **Line breaks are counted.** An offset stands for the characters that end at or before it. Its line is one more than
the number of line breaks of the whole text that end among them, and its column is one more than the number of
characters after the last of these breaks. Between a carriage return and its line feed the line is one more than that,
and the column is 1. -/
theorem breaks_counted (s : Span) (source : String) : ∃ p, Passed source.toList s.start p ∧
    (s.lineColumn source).1 =
      1 + Nat.count (EndsAt source.toList) (p + 1) + (if InsidePair source.toList p then 1 else 0) ∧
    (¬ InsidePair source.toList p → ∃ last ≤ p, (last = 0 ∨ EndsAt source.toList last) ∧
      (∀ k, last < k → k ≤ p → ¬ EndsAt source.toList k) ∧ (s.lineColumn source).2 = 1 + (p - last)) ∧
    (InsidePair source.toList p → (s.lineColumn source).2 = 1) := by
  obtain ⟨p, hp, htext⟩ := passed_textBefore s.start source.toList
  have hlength : (source.toList.take p).length = p := List.length_take_of_le hp.le_length
  obtain ⟨last, hlast, hcolumn⟩ := advance_column 1 1 (source.toList.take p)
  have hle : last ≤ p := hlength ▸ hlast.le_length
  rw [ite_self, hlength] at hcolumn
  refine ⟨p, hp, ?_, ?_, ?_⟩
  · rw [Span.lineColumn, htext, advance_line, count_take hp.le_length]
    omega
  · intro hinside
    have hsame : ∀ k ≤ p, EndsAt (source.toList.take p) k ↔ EndsAt source.toList k := by
      intro k hk
      rw [endsAt_take hk]
      exact or_iff_left fun h => hinside h.2
    refine ⟨last, hle, hlast.ends.imp_right (hsame last hle).1, ?_, ?_⟩
    · exact fun k hk hkp hends => hlast.none_after k hk (hlength.symm ▸ hkp) ((hsame k hkp).2 hends)
    · rw [Span.lineColumn, htext, hcolumn]
  · intro hinside
    -- the cut text ends with a break, so no character comes after its last one
    have hends : EndsAt (source.toList.take p) p := (endsAt_take (Nat.le_refl p)).2 (Or.inr ⟨rfl, hinside⟩)
    have heq : last = p := by
      by_contra hne
      exact hlast.none_after p (by omega) (Nat.le_of_eq hlength.symm) hends
    rw [Span.lineColumn, htext, hcolumn, heq]
    omega

/-- **Inside of a pair the line is too high.** At the line feed of `a CR LF b` no line break has ended, but the line
is 2. -/
theorem pair_split :
    Passed "a\r\nb".toList 2 2 ∧ Nat.count (EndsAt "a\r\nb".toList) (2 + 1) = 0 ∧
      (Span.point 2).lineColumn "a\r\nb" = (2, 1) ∧
      ¬ ∀ (s : Span) (source : String) (p : Nat), Passed source.toList s.start p →
        (s.lineColumn source).1 = 1 + Nat.count (EndsAt source.toList) (p + 1) := by
  have htext : "a\r\nb".toList = ['a', '\r', '\n', 'b'] := by decide
  have hpassed : Passed "a\r\nb".toList 2 2 := by
    rw [htext]
    refine ⟨by decide, by decide, fun k hk hbytes => ?_⟩
    by_contra hlt
    obtain rfl | rfl : k = 3 ∨ k = 4 := by simp at hk; omega
    · revert hbytes; decide
    · revert hbytes; decide
  have hcount : Nat.count (EndsAt "a\r\nb".toList) (2 + 1) = 0 := by
    rw [htext]
    decide
  have hline : (Span.point 2).lineColumn "a\r\nb" = (2, 1) := by
    rw [Span.lineColumn, htext]
    decide
  refine ⟨hpassed, hcount, hline, fun h => ?_⟩
  have hone := h (Span.point 2) "a\r\nb" 2 hpassed
  rw [hline, hcount] at hone
  cases hone

end CurveScript.Positions
