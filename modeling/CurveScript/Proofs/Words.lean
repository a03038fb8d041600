/-
Words, said without a scanner.

A `Word` is a text of one of the classes of lexemes. Two of the classes are faults: a number whose exponent has no
digits, and the mark that opens a block comment. A word is the longest at its place when no text of any class is longer
there.

Results:
- `length_le_number`: no number at the front is longer than the one that is cut off.
- `cut_word`, `length_le_cut`: what is cut off is a word, and no word at the front is longer.
- `cut_longest`, `cut_openComment`, `no_word`: the three ways in which a text can go on.
- `Longest.truncate`, `Longest.extend`: a word is the longest where the text ends sooner, or where a space follows.
-/
import Mathlib
import CurveScript.Proofs.Blanks

namespace CurveScript.Words

open CurveScript.Blanks

/-! ## Words -/

/-- the digits of a number, with a point or without -/
inductive Mantissa : List Char → Prop where
  | whole {ds : List Char} (hne : ds ≠ []) (hds : ∀ d ∈ ds, d.isDigit = true) : Mantissa ds
  | point {ds fs : List Char} (hne : ds ≠ [] ∨ fs ≠ []) (hds : ∀ d ∈ ds, d.isDigit = true)
      (hfs : ∀ d ∈ fs, d.isDigit = true) : Mantissa (ds ++ '.' :: fs)

/-- no sign, or one of the two -/
inductive Sign : List Char → Prop where
  | none : Sign []
  | plus : Sign ['+']
  | minus : Sign ['-']

/-- the mark of an exponent, with the exponent's sign -/
inductive Mark : List Char → Prop where
  | intro {e : Char} {s : List Char} (he : e = 'e' ∨ e = 'E') (hs : Sign s) : Mark (e :: s)

/-- the numbers, without a sign of their own -/
inductive Number : List Char → Prop where
  | plain {m : List Char} (hm : Mantissa m) : Number m
  | exponent {m x ds : List Char} (hm : Mantissa m) (hx : Mark x) (hne : ds ≠ []) (hds : ∀ d ∈ ds, d.isDigit = true) :
      Number (m ++ (x ++ ds))

/-- the numbers whose exponent has no digits -/
inductive Malformed : List Char → Prop where
  | intro {m x : List Char} (hm : Mantissa m) (hx : Mark x) : Malformed (m ++ x)

/-- The texts of the classes of lexemes. A sign is part of a number only where no operand stands before it. -/
inductive Word (afterOperand : Bool) : LexemeKind → List Char → Prop where
  | number {s n : List Char} (hs : Sign s) (hn : Number n) (h : afterOperand = true → s = []) :
      Word afterOperand .number (s ++ n)
  | malformed {s n : List Char} (hs : Sign s) (hn : Malformed n) (h : afterOperand = true → s = []) :
      Word afterOperand .malformedNumber (s ++ n)
  | name {c : Char} {cs : List Char} (hc : startsName c = true) (hcs : ∀ d ∈ cs, inName d = true) :
      Word afterOperand .name (c :: cs)
  | symbol (s : Symbol) : Word afterOperand (.symbol s) s.chars
  | leftParen : Word afterOperand .leftParen ['(']
  | rightParen : Word afterOperand .rightParen [')']
  | comma : Word afterOperand .comma [',']
  | semicolon : Word afterOperand .semicolon [';']
  | newline {b f : List Char} (hb : Break b f) : Word afterOperand .newline b
  | openComment : Word afterOperand .openComment ['/', '*']

/-- the text is the longest word at the front -/
structure Longest (afterOperand : Bool) (cs : List Char) (kind : LexemeKind) (w : List Char) : Prop where
  word : Word afterOperand kind w
  starts : w <+: cs
  longest : ∀ kind' w', Word afterOperand kind' w' → w' <+: cs → w'.length ≤ w.length

/-- A word is the longest where the text ends sooner. -/
theorem Longest.truncate {after : Bool} {kind : LexemeKind} {w f g : List Char}
    (h : Longest after (w ++ (f ++ g)) kind w) : Longest after (w ++ f) kind w := by
  refine ⟨h.word, List.prefix_append w f, fun kind' w' hw' hstarts => ?_⟩
  refine h.longest kind' w' hw' (hstarts.trans ?_)
  rw [← List.append_assoc]
  exact List.prefix_append (w ++ f) g

/-! ## Numbers -/

theorem Mantissa.head {m : List Char} (h : Mantissa m) : ∃ c r, m = c :: r ∧ (c.isDigit = true ∨ c = '.') := by
  cases h with
  | whole hne hds =>
    obtain ⟨c, r, rfl⟩ := List.exists_cons_of_ne_nil hne
    exact ⟨c, r, rfl, .inl (hds c List.mem_cons_self)⟩
  | @point ds fs hne hds hfs =>
    cases ds with
    | nil => exact ⟨'.', fs, rfl, .inr rfl⟩
    | cons c ds => exact ⟨c, ds ++ '.' :: fs, rfl, .inl (hds c List.mem_cons_self)⟩

theorem isDigit_takeWhile (t : List Char) : ∀ d ∈ t.takeWhile Char.isDigit, d.isDigit = true :=
  fun _ hd => List.mem_takeWhile_imp hd

theorem ne_point_of_isDigit {d : Char} (h : d.isDigit = true) : d ≠ '.' := by
  rintro rfl
  exact absurd h (by decide)

/-- how a text that starts with no point is read -/
theorem mantissa?_digit {d : Char} {r : List Char} (hd : d ≠ '.') :
    mantissa? (d :: r) =
      if (d :: r).takeWhile Char.isDigit = [] then none
      else match (d :: r).dropWhile Char.isDigit with
        | '.' :: r' => some ((d :: r).takeWhile Char.isDigit ++ '.' :: r'.takeWhile Char.isDigit,
            r'.dropWhile Char.isDigit)
        | r' => some ((d :: r).takeWhile Char.isDigit, r') := by
  unfold mantissa?
  split
  · next r' heq => exact absurd (List.cons.inj heq).1 hd
  · rfl

/-- Digits and a point, read as far as they go. -/
theorem mantissa?_point {ds r : List Char} (hds : ∀ d ∈ ds, d.isDigit = true)
    (hne : ds ≠ [] ∨ r.takeWhile Char.isDigit ≠ []) :
    mantissa? (ds ++ '.' :: r) = some (ds ++ '.' :: r.takeWhile Char.isDigit, r.dropWhile Char.isDigit) := by
  cases ds with
  | nil =>
    have hfs : r.takeWhile Char.isDigit ≠ [] := hne.resolve_left fun h => h rfl
    simp [mantissa?, hfs]
  | cons d ds =>
    have hstop : ∀ c, ('.' :: r).head? = some c → c.isDigit = false := by
      intro c hc
      cases hc
      rfl
    have htake := takeWhile_run hds hstop
    have hdrop := dropWhile_run hds hstop
    rw [List.cons_append] at htake hdrop ⊢
    rw [mantissa?_digit (ne_point_of_isDigit (hds d List.mem_cons_self)), htake, hdrop]
    simp

/-- Digits without a point after them, read as far as they go. -/
theorem mantissa?_whole {ds r : List Char} (hds : ∀ d ∈ ds, d.isDigit = true) (hne : ds ≠ [])
    (hr : ∀ c, r.head? = some c → c.isDigit = false ∧ c ≠ '.') : mantissa? (ds ++ r) = some (ds, r) := by
  obtain ⟨d, ds, rfl⟩ := List.exists_cons_of_ne_nil hne
  have htake := takeWhile_run hds fun c hc => (hr c hc).1
  have hdrop := dropWhile_run hds fun c hc => (hr c hc).1
  rw [List.cons_append] at htake hdrop ⊢
  rw [mantissa?_digit (ne_point_of_isDigit (hds d List.mem_cons_self)), htake, hdrop]
  cases r with
  | nil => simp
  | cons c r => simp [(hr c rfl).2]

/-- A mantissa that ends where the digits end is read. -/
theorem Mantissa.read {m r : List Char} (h : Mantissa m) (hr : ∀ c, r.head? = some c → c.isDigit = false ∧ c ≠ '.') :
    mantissa? (m ++ r) = some (m, r) := by
  cases h with
  | whole hne hds => exact mantissa?_whole hds hne hr
  | @point ds fs hne hds hfs =>
    have htake := takeWhile_run hfs fun c hc => (hr c hc).1
    have hdrop := dropWhile_run hfs fun c hc => (hr c hc).1
    have hread := mantissa?_point (r := fs ++ r) hds (by rwa [htake])
    rw [htake, hdrop] at hread
    rw [List.append_assoc, List.cons_append]
    exact hread

/-- What is read of a number's digits is a mantissa. -/
theorem mantissa?_mantissa {cs m r : List Char} (h : mantissa? cs = some (m, r)) : Mantissa m := by
  unfold mantissa? at h
  split at h
  · next t =>
    split at h
    · cases h
    · next hne =>
      cases h
      have hpoint : Mantissa ([] ++ '.' :: t.takeWhile Char.isDigit) := .point (.inr hne) nofun (isDigit_takeWhile t)
      exact hpoint
  · split at h
    · cases h
    · next hne =>
      split at h
      · cases h
        exact .point (.inl hne) (isDigit_takeWhile _) (isDigit_takeWhile _)
      · cases h
        exact .whole hne (isDigit_takeWhile _)

/-- No mantissa at the front is longer than the one that is read. -/
theorem Mantissa.length_le {m t : List Char} (h : Mantissa m) :
    ∃ m' r, mantissa? (m ++ t) = some (m', r) ∧ m.length ≤ m'.length := by
  cases h with
  | whole hne hds =>
    -- the digits may go on in the text, and a point may follow
    have hall : ∀ d ∈ m ++ t.takeWhile Char.isDigit, d.isDigit = true := by
      intro d hd
      rcases List.mem_append.1 hd with hd | hd
      · exact hds d hd
      · exact isDigit_takeWhile t d hd
    have hsplit : m ++ t = (m ++ t.takeWhile Char.isDigit) ++ t.dropWhile Char.isDigit := by
      rw [List.append_assoc, List.takeWhile_append_dropWhile]
    have hne' : m ++ t.takeWhile Char.isDigit ≠ [] := fun hnil => hne (List.append_eq_nil_iff.1 hnil).1
    rw [hsplit]
    by_cases hpoint : (t.dropWhile Char.isDigit).head? = some '.'
    · obtain ⟨r, hr⟩ := List.head?_eq_some_iff.1 hpoint
      rw [hr, mantissa?_point hall (.inl hne')]
      exact ⟨_, _, rfl, by simp⟩
    · have hstop : ∀ c, (t.dropWhile Char.isDigit).head? = some c → c.isDigit = false ∧ c ≠ '.' :=
        fun c hc => ⟨head?_dropWhile hc, fun hdot => hpoint (hdot ▸ hc)⟩
      rw [mantissa?_whole hall hne' hstop]
      exact ⟨_, _, rfl, by simp⟩
  | @point ds fs hne hds hfs =>
    have htake : (fs ++ t).takeWhile Char.isDigit = fs ++ t.takeWhile Char.isDigit :=
      List.takeWhile_append_of_pos hfs
    have hne' : ds ≠ [] ∨ (fs ++ t).takeWhile Char.isDigit ≠ [] := by
      rw [htake]
      exact hne.imp_right fun hfs hnil => hfs (List.append_eq_nil_iff.1 hnil).1
    rw [List.append_assoc, List.cons_append, mantissa?_point hds hne', htake]
    exact ⟨_, _, rfl, by simp⟩

theorem mantissa?_eq_none {c : Char} {r : List Char} (hdigit : c.isDigit = false) (hpoint : c ≠ '.') :
    mantissa? (c :: r) = none := by
  rw [mantissa?_digit hpoint]
  simp [hdigit]

/-- The sign of an exponent is taken off where digits follow it. -/
theorem exponentSign_sign {s r : List Char} (hs : Sign s) (hr : s = [] → ∀ c, r.head? = some c → c ≠ '+' ∧ c ≠ '-') :
    exponentSign (s ++ r) = (s, r) := by
  cases hs with
  | plus => rfl
  | minus => rfl
  | none =>
    cases r with
    | nil => rfl
    | cons c r =>
      obtain ⟨hplus, hminus⟩ := hr rfl c rfl
      simp [exponentSign, hplus, hminus]

theorem sign_exponentSign (r : List Char) : Sign (exponentSign r).1 := by
  unfold exponentSign
  split
  · exact .plus
  · exact .minus
  · exact .none

theorem length_le_exponentSign {s r : List Char} (hs : Sign s) : s.length ≤ (exponentSign (s ++ r)).1.length := by
  cases hs with
  | none => exact Nat.zero_le _
  | plus => exact Nat.le_refl _
  | minus => exact Nat.le_refl _

/-- What is cut off as a number is a number, if its exponent has digits. -/
theorem cutNumber_word {m : List Char} (hm : Mantissa m) (r : List Char) :
    ((cutNumber m r).kind = .number ∧ Number (cutNumber m r).text) ∨
      ((cutNumber m r).kind = .malformedNumber ∧ Malformed (cutNumber m r).text) := by
  unfold cutNumber
  split
  · next mark t =>
    split
    · next hmark =>
      have hx : Mark (mark :: (exponentSign t).1) := .intro hmark (sign_exponentSign t)
      dsimp only
      split
      · exact .inr ⟨rfl, .intro hm hx⟩
      · next hne => exact .inl ⟨rfl, .exponent hm hx hne (isDigit_takeWhile _)⟩
    · exact .inl ⟨rfl, .plain hm⟩
  · exact .inl ⟨rfl, .plain hm⟩

theorem length_le_cutNumber (m r : List Char) : m.length ≤ (cutNumber m r).text.length := by
  unfold cutNumber
  split
  · split
    · dsimp only
      split <;> simp
    · exact Nat.le_refl _
  · exact Nat.le_refl _

/-- A mark is neither a digit nor a point. -/
theorem Mark.stop {x : List Char} (hx : Mark x) (r : List Char) :
    ∀ c, (x ++ r).head? = some c → c.isDigit = false ∧ c ≠ '.' := by
  cases hx with
  | intro he hs =>
    intro c hc
    cases hc
    rcases he with rfl | rfl <;> decide

/-- A mark after the digits ends the mantissa. -/
theorem Mantissa.read_mark {m x : List Char} (hm : Mantissa m) (hx : Mark x) (r : List Char) :
    mantissa? (m ++ (x ++ r)) = some (m, x ++ r) :=
  hm.read (hx.stop r)

/-- No number with a mark after its digits is longer than the one that is cut off. -/
theorem length_le_cutNumber_mark {m x t ds : List Char} (hx : Mark x) (hds : ∀ d ∈ ds, d.isDigit = true) :
    (m ++ (x ++ ds)).length ≤ (cutNumber m (x ++ (ds ++ t))).text.length := by
  cases hx with
  | @intro e s he hs =>
    cases ds with
    | nil =>
      have hsign := length_le_exponentSign (r := t) hs
      simp only [List.cons_append, cutNumber, if_pos he, List.nil_append, List.append_nil]
      split
      · simpa using hsign
      · simp only [List.length_append, List.length_cons]
        omega
    | cons d ds =>
      have hd := hds d List.mem_cons_self
      have hsign : exponentSign (s ++ (d :: ds ++ t)) = (s, d :: ds ++ t) := by
        refine exponentSign_sign hs fun _ c hc => ?_
        cases hc
        constructor <;> rintro rfl <;> exact absurd hd (by decide)
      have htake : (d :: ds ++ t).takeWhile Char.isDigit = d :: ds ++ t.takeWhile Char.isDigit :=
        List.takeWhile_append_of_pos hds
      rw [List.cons_append, List.cons_append, cutNumber]
      simp only [if_pos he, hsign, htake]
      simp

/-- **No number at the front is longer than the one that is cut off.** -/
theorem length_le_number {n t : List Char} (hn : Number n ∨ Malformed n) :
    ∃ m r, mantissa? (n ++ t) = some (m, r) ∧ n.length ≤ (cutNumber m r).text.length := by
  rcases hn with hn | hn
  · cases hn with
    | plain hm =>
      obtain ⟨m, r, hread, hle⟩ := hm.length_le (t := t)
      exact ⟨m, r, hread, hle.trans (length_le_cutNumber m r)⟩
    | @exponent m x ds hm hx hne hds =>
      refine ⟨m, x ++ (ds ++ t), ?_, length_le_cutNumber_mark hx hds⟩
      have hread := hm.read_mark hx (ds ++ t)
      simpa using hread
  · cases hn with
    | @intro m x hm hx =>
      refine ⟨m, x ++ ([] ++ t), ?_, ?_⟩
      · have hread := hm.read_mark hx t
        simpa using hread
      · have hle : (m ++ (x ++ [])).length ≤ (cutNumber m (x ++ ([] ++ t))).text.length :=
          length_le_cutNumber_mark hx nofun
        simpa using hle

/-! ## Cutting -/

theorem Symbol.exists_read? (s : Symbol) (t : List Char) :
    ∃ s' r, Symbol.read? (s.chars ++ t) = some (s', r) ∧ s.chars.length ≤ s'.chars.length := by
  cases hread : Symbol.read? (s.chars ++ t) with
  | some p =>
    refine ⟨p.1, p.2, rfl, ?_⟩
    cases s with
    | eq | ne | le | ge | arrow =>
      cases hread
      exact Nat.le_refl _
    | _ =>
      have hne := List.length_pos_iff.2 (CurveScript.Symbol.chars_ne_nil p.1)
      exact hne
  | none =>
    -- one more character decides between these and longer symbols
    cases s with
    | assign | lt | gt =>
      simp only [Symbol.chars, List.singleton_append] at hread
      unfold Symbol.read? at hread
      split at hread <;> simp_all
    | _ => cases hread

/-- A letter is no digit, and starts neither a number nor a comment. -/
theorem startsName_ne {c : Char} (h : startsName c = true) : c.isDigit = false ∧ c ≠ '.' ∧ c ≠ '/' := by
  refine ⟨?_, ?_, ?_⟩
  · simp only [startsName, Char.isAlpha, Char.isUpper, Char.isLower, Bool.or_eq_true, Bool.and_eq_true,
      decide_eq_true_eq, beq_iff_eq, ge_iff_le, UInt32.le_iff_toNat_le] at h
    have h0 : '0'.val.toNat = 48 := rfl
    have h9 : '9'.val.toNat = 57 := rfl
    have hA : 'A'.val.toNat = 65 := rfl
    have ha : 'a'.val.toNat = 97 := rfl
    rw [Bool.eq_false_iff]
    intro hdigit
    simp only [Char.isDigit, Bool.and_eq_true, decide_eq_true_eq, ge_iff_le, UInt32.le_iff_toNat_le] at hdigit
    rcases h with (h | h) | rfl
    · omega
    · omega
    · exact absurd hdigit.2 (by decide)
  · rintro rfl
    exact absurd h (by decide)
  · rintro rfl
    exact absurd h (by decide)

/-- A text that starts with a symbol starts with no number and no name. -/
theorem Symbol.head_chars (s : Symbol) :
    ∃ c r, s.chars = c :: r ∧ c.isDigit = false ∧ c ≠ '.' ∧ startsName c = false := by
  cases s <;> exact ⟨_, _, rfl, by decide, by decide, by decide⟩

section Cut

variable {c : Char} {r : List Char}

theorem cut_mantissa {m r' : List Char} (h : mantissa? (c :: r) = some (m, r')) : cut c r = cutNumber m r' := by
  have hslash : ¬ (c = '/' ∧ r.head? = some '*') := by
    rintro ⟨rfl, -⟩
    rw [mantissa?_eq_none (by decide) (by decide)] at h
    cases h
  rw [cut.eq_def, if_neg hslash, h]

theorem cut_name (h : startsName c = true) : cut c r = ⟨.name, c :: r.takeWhile inName, r.dropWhile inName⟩ := by
  obtain ⟨hdigit, hpoint, hslash⟩ := startsName_ne h
  rw [cut.eq_def, if_neg fun hc => hslash hc.1, mantissa?_eq_none hdigit hpoint]
  exact if_pos h

theorem cut_symbol {s : Symbol} {r' : List Char} (hslash : ¬ (c = '/' ∧ r.head? = some '*'))
    (h : Symbol.read? (c :: r) = some (s, r')) : cut c r = ⟨.symbol s, s.chars, r'⟩ := by
  obtain ⟨c', t, hchars, hdigit, hpoint, hname⟩ := Symbol.head_chars s
  have happ := CurveScript.Symbol.chars_append_of_read? h
  rw [hchars] at happ
  cases happ
  rw [cut.eq_def, if_neg hslash, mantissa?_eq_none hdigit hpoint]
  simp only [hname, Bool.false_eq_true, if_false, h]

theorem cut_commentMark (r : List Char) : cut '/' ('*' :: r) = ⟨.openComment, '/' :: '*' :: r, []⟩ := rfl

/-- **What is cut off is a word,** unless a comment is opened or no word is found. -/
theorem cut_word (after : Bool) (c : Char) (r : List Char) :
    (∃ r', c = '/' ∧ r = '*' :: r') ∨ cut c r = ⟨.unknown, [c], r⟩ ∨
      ((cut c r).kind ≠ .openComment ∧ Word after (cut c r).kind (cut c r).text) := by
  by_cases hslash : c = '/' ∧ r.head? = some '*'
  · obtain ⟨r', hr⟩ := List.head?_eq_some_iff.1 hslash.2
    exact .inl ⟨r', hslash.1, hr⟩
  · right
    cases hmantissa : mantissa? (c :: r) with
    | some p =>
      right
      rw [cut_mantissa hmantissa]
      rcases cutNumber_word (mantissa?_mantissa hmantissa) p.2 with ⟨hkind, hn⟩ | ⟨hkind, hn⟩
      · rw [hkind]
        exact ⟨nofun, .number .none hn fun _ => rfl⟩
      · rw [hkind]
        exact ⟨nofun, .malformed .none hn fun _ => rfl⟩
    | none =>
      by_cases hname : startsName c = true
      · right
        rw [cut_name hname]
        exact ⟨nofun, .name hname fun d hd => List.mem_takeWhile_imp hd⟩
      · cases hread : Symbol.read? (c :: r) with
        | some p =>
          right
          rw [cut_symbol hslash hread]
          exact ⟨nofun, .symbol p.1⟩
        | none =>
          rw [cut.eq_def, if_neg hslash, hmantissa]
          simp only [hname, Bool.false_eq_true, if_false, hread]
          split
          · exact .inr ⟨nofun, .leftParen⟩
          · exact .inr ⟨nofun, .rightParen⟩
          · exact .inr ⟨nofun, .comma⟩
          · exact .inr ⟨nofun, .semicolon⟩
          · cases hbreak : lineBreak? (c :: r) with
            | some p => exact .inr ⟨nofun, .newline (lineBreak?_eq_some.1 hbreak).2⟩
            | none => exact .inl rfl

theorem cut_break {b f t : List Char} (hb : Break b f) (h : b ++ t = c :: r) :
    (cut c r).kind = .newline ∧ b.length ≤ (cut c r).text.length := by
  cases hb with
  | lineFeed => cases h; exact ⟨rfl, Nat.le_refl _⟩
  | pair => cases h; exact ⟨rfl, Nat.le_refl _⟩
  | carriageReturn =>
    cases h
    refine ⟨?_, List.length_pos_iff.2 (Cut.text_ne_nil '\r' t)⟩
    obtain ⟨b, r, hbreak⟩ : ∃ b r, lineBreak? ('\r' :: t) = some (b, r) := by
      cases t with
      | nil => exact ⟨_, _, rfl⟩
      | cons d t =>
        by_cases hd : d = '\n'
        · subst hd
          exact ⟨_, _, rfl⟩
        · exact ⟨['\r'], d :: t, by simp [lineBreak?, hd]⟩
    show (cut '\r' t).kind = .newline
    unfold cut
    rw [hbreak]
    rfl

/-- **No word at the front is longer than what is cut off.** -/
theorem length_le_cut {kind : LexemeKind} {w : List Char} (h : Word true kind w) (hw : w <+: c :: r) :
    (cut c r).kind ≠ .unknown ∧ w.length ≤ (cut c r).text.length := by
  have hnumber : ∀ {n : List Char}, Number n ∨ Malformed n → n <+: c :: r →
      (cut c r).kind ≠ .unknown ∧ n.length ≤ (cut c r).text.length := by
    rintro n hn ⟨t, ht⟩
    obtain ⟨m, r', hread, hle⟩ := length_le_number (t := t) hn
    rw [ht] at hread
    rw [cut_mantissa hread]
    refine ⟨?_, hle⟩
    rcases cutNumber_word (mantissa?_mantissa hread) r' with ⟨hkind, -⟩ | ⟨hkind, -⟩ <;> simp [hkind]
  have hone : 1 ≤ (cut c r).text.length := List.length_pos_iff.2 (Cut.text_ne_nil c r)
  cases h with
  | number _ hn hs =>
    cases hs rfl
    exact hnumber (.inl hn) hw
  | malformed _ hn hs =>
    cases hs rfl
    exact hnumber (.inr hn) hw
  | name hc hcs =>
    obtain ⟨t, ht⟩ := hw
    cases ht
    rw [cut_name hc]
    refine ⟨nofun, ?_⟩
    simp [List.takeWhile_append_of_pos hcs]
  | symbol s =>
    by_cases hslash : c = '/' ∧ r.head? = some '*'
    · rw [cut.eq_def, if_pos hslash]
      exact ⟨nofun, hw.length_le⟩
    · obtain ⟨t, ht⟩ := hw
      obtain ⟨s', r', hread, hle⟩ := Symbol.exists_read? s t
      rw [ht] at hread
      rw [cut_symbol hslash hread]
      exact ⟨nofun, hle⟩
  | leftParen | rightParen | comma | semicolon =>
    obtain ⟨t, ht⟩ := hw
    cases ht
    exact ⟨nofun, hone⟩
  | newline hb =>
    obtain ⟨t, ht⟩ := hw
    obtain ⟨hkind, hle⟩ := cut_break hb ht
    rw [hkind]
    exact ⟨nofun, hle⟩
  | openComment =>
    obtain ⟨t, ht⟩ := hw
    cases ht
    exact ⟨nofun, by simp [cut_commentMark]⟩

/-- **The longest word,** where no comment is opened and a word is found. -/
theorem cut_longest (hopen : (cut c r).kind ≠ .openComment) (hunknown : (cut c r).kind ≠ .unknown) :
    Longest true (c :: r) (cut c r).kind (cut c r).text := by
  refine ⟨?_, ⟨_, Cut.text_append c r⟩, fun kind w h hw => (length_le_cut h hw).2⟩
  rcases cut_word true c r with ⟨r', rfl, rfl⟩ | hcut | ⟨-, hword⟩
  · exact absurd rfl hopen
  · rw [hcut] at hunknown
    exact absurd rfl hunknown
  · exact hword

/-- The mark of a block comment is the longest word where it stands. -/
theorem longest_openComment (after : Bool) (r : List Char) :
    Longest after ('/' :: '*' :: r) .openComment ['/', '*'] := by
  refine ⟨.openComment, ⟨r, rfl⟩, fun kind w h hw => ?_⟩
  -- a number or a name starts with another character, and no other word is longer than two
  have hnumber : ∀ {n : List Char}, Number n ∨ Malformed n → ¬ n <+: '/' :: '*' :: r := by
    rintro n hn ⟨t, ht⟩
    obtain ⟨m, r', hread, -⟩ := length_le_number (t := t) hn
    rw [ht, mantissa?_eq_none (by decide) (by decide)] at hread
    cases hread
  cases h with
  | @number s n hs hn =>
    cases hs with
    | none => exact absurd hw (hnumber (.inl hn))
    | plus | minus => obtain ⟨t, ht⟩ := hw; cases ht
  | @malformed s n hs hn =>
    cases hs with
    | none => exact absurd hw (hnumber (.inr hn))
    | plus | minus => obtain ⟨t, ht⟩ := hw; cases ht
  | name hc =>
    obtain ⟨t, ht⟩ := hw
    rw [(List.cons.inj ht).1] at hc
    exact absurd hc (by decide)
  | symbol s => cases s <;> decide
  | leftParen | rightParen | comma | semicolon => decide
  | newline hb => cases hb <;> simp
  | openComment => decide

/-- No word stands at the front where none is found. -/
theorem no_word (hunknown : (cut c r).kind = .unknown) :
    cut c r = ⟨.unknown, [c], r⟩ ∧ ∀ kind w, Word true kind w → ¬ w <+: c :: r := by
  refine ⟨?_, fun kind w h hw => (length_le_cut h hw).1 hunknown⟩
  rcases cut_word true c r with ⟨r', rfl, rfl⟩ | hcut | ⟨-, hword⟩
  · cases hunknown
  · exact hcut
  · rw [hunknown] at hword
    cases hword

end Cut

/-- A number starts with a digit or with its point. -/
theorem head_of_number {c : Char} {r : List Char} (hn : Number (c :: r) ∨ Malformed (c :: r)) :
    c.isDigit = true ∨ c = '.' := by
  have hmantissa : ∀ {m t : List Char}, Mantissa m → c :: r = m ++ t → c.isDigit = true ∨ c = '.' := by
    intro m t hm heq
    obtain ⟨c', m', rfl, hc⟩ := hm.head
    cases heq
    exact hc
  generalize hw : c :: r = w at hn
  rcases hn with hn | hn
  · cases hn with
    | plain hm => exact hmantissa hm (hw.trans (List.append_nil w).symm)
    | exponent hm => exact hmantissa hm hw
  · cases hn with
    | intro hm => exact hmantissa hm hw

/-! ## One class each -/

theorem Mantissa.last {m : List Char} (h : Mantissa m) : ∃ t d, m = t ++ [d] ∧ (d.isDigit = true ∨ d = '.') := by
  have hdigits : ∀ {ds : List Char}, ds ≠ [] → (∀ d ∈ ds, d.isDigit = true) →
      ∃ t d, ds = t ++ [d] ∧ (d.isDigit = true ∨ d = '.') := by
    intro ds hne hds
    refine ⟨ds.dropLast, ds.getLast hne, (List.dropLast_append_getLast hne).symm, .inl (hds _ (List.getLast_mem hne))⟩
  cases h with
  | whole hne hds => exact hdigits hne hds
  | @point ds fs hne hds hfs =>
    cases fs with
    | nil => exact ⟨ds, '.', rfl, .inr rfl⟩
    | cons d fs =>
      obtain ⟨t, e, hfs', he⟩ := hdigits (List.cons_ne_nil d fs) hfs
      exact ⟨ds ++ '.' :: t, e, by rw [hfs']; simp, he⟩

theorem Number.last {n : List Char} (h : Number n) : ∃ t d, n = t ++ [d] ∧ (d.isDigit = true ∨ d = '.') := by
  cases h with
  | plain hm => exact hm.last
  | @exponent m x ds hm hx hne hds =>
    refine ⟨m ++ (x ++ ds.dropLast), ds.getLast hne, ?_, .inl (hds _ (List.getLast_mem hne))⟩
    simp [List.dropLast_append_getLast hne]

theorem Malformed.last {n : List Char} (h : Malformed n) :
    ∃ t d, n = t ++ [d] ∧ (d = 'e' ∨ d = 'E' ∨ d = '+' ∨ d = '-') := by
  cases h with
  | @intro m x hm hx =>
    cases hx with
    | @intro e s he hs =>
      cases hs with
      | none => exact ⟨m, e, rfl, by tauto⟩
      | plus => exact ⟨m ++ [e], '+', by simp, by simp⟩
      | minus => exact ⟨m ++ [e], '-', by simp, by simp⟩

/-- A number that lacks the digits of its exponent is no number. -/
theorem Number.not_malformed {n : List Char} (h : Number n) (h' : Malformed n) : False := by
  obtain ⟨t, d, rfl, hd⟩ := h.last
  obtain ⟨t', d', heq, hd'⟩ := h'.last
  obtain ⟨-, hlast⟩ := List.append_inj' heq rfl
  cases hlast
  rcases hd' with rfl | rfl | rfl | rfl <;> exact absurd hd (by decide)

/-- A word is cut off whole, in its class. -/
theorem Word.cut_self {kind : LexemeKind} {c : Char} {r : List Char} (h : Word true kind (c :: r)) :
    (cut c r).kind = kind := by
  have hnumber : Number (c :: r) ∨ Malformed (c :: r) → ∃ m r', cut c r = cutNumber m r' ∧ Mantissa m ∧
      (cutNumber m r').text = c :: r := by
    intro hn
    obtain ⟨m, r', hread, hle⟩ := length_le_number (t := []) hn
    rw [List.append_nil] at hread
    refine ⟨m, r', cut_mantissa hread, mantissa?_mantissa hread, ?_⟩
    have happ := Cut.text_append c r
    rw [cut_mantissa hread] at happ
    exact List.IsPrefix.eq_of_length_le ⟨_, happ⟩ hle
  generalize hw : c :: r = w at h
  cases h with
  | number _ hn hs =>
    cases hs rfl
    rw [List.nil_append] at hw
    subst hw
    obtain ⟨m, r', hcut, hm, htext⟩ := hnumber (.inl hn)
    rw [hcut]
    rcases cutNumber_word hm r' with ⟨hkind, -⟩ | ⟨-, hmal⟩
    · exact hkind
    · rw [htext] at hmal
      exact (hn.not_malformed hmal).elim
  | malformed _ hn hs =>
    cases hs rfl
    rw [List.nil_append] at hw
    subst hw
    obtain ⟨m, r', hcut, hm, htext⟩ := hnumber (.inr hn)
    rw [hcut]
    rcases cutNumber_word hm r' with ⟨-, hnum⟩ | ⟨hkind, -⟩
    · rw [htext] at hnum
      exact (hnum.not_malformed hn).elim
    · exact hkind
  | name hc =>
    cases hw
    rw [cut_name hc]
  | symbol s => cases s <;> cases hw <;> rfl
  | leftParen | rightParen | comma | semicolon | openComment => cases hw; rfl
  | newline hb => exact (cut_break hb (by rw [List.append_nil]; exact hw.symm)).1

/-! ## Words and spaces -/

theorem ne_space_of_isDigit {d : Char} (h : d.isDigit = true) : d ≠ ' ' := by
  rintro rfl
  exact absurd h (by decide)

theorem Mantissa.ne_space {m : List Char} (h : Mantissa m) : ∀ d ∈ m, d ≠ ' ' := by
  intro d hd
  cases h with
  | whole hne hds => exact ne_space_of_isDigit (hds d hd)
  | point hne hds hfs =>
    rcases List.mem_append.1 hd with hd | hd
    · exact ne_space_of_isDigit (hds d hd)
    · rcases List.mem_cons.1 hd with rfl | hd
      · decide
      · exact ne_space_of_isDigit (hfs d hd)

theorem Sign.ne_space {s : List Char} (h : Sign s) : ∀ d ∈ s, d ≠ ' ' := by
  cases h <;> simp

theorem Mark.ne_space {x : List Char} (h : Mark x) : ∀ d ∈ x, d ≠ ' ' := by
  cases h with
  | intro he hs =>
    rw [List.forall_mem_cons]
    refine ⟨?_, hs.ne_space⟩
    rcases he with rfl | rfl <;> decide

/-- No word holds a space. -/
theorem Word.ne_space {after : Bool} {kind : LexemeKind} {w : List Char} (h : Word after kind w) :
    ∀ d ∈ w, d ≠ ' ' := by
  cases h with
  | @number s n hs hn =>
    rw [List.forall_mem_append]
    refine ⟨hs.ne_space, ?_⟩
    cases hn with
    | plain hm => exact hm.ne_space
    | exponent hm hx hne hds =>
      rw [List.forall_mem_append, List.forall_mem_append]
      exact ⟨hm.ne_space, hx.ne_space, fun d hd => ne_space_of_isDigit (hds d hd)⟩
  | @malformed s n hs hn =>
    rw [List.forall_mem_append]
    refine ⟨hs.ne_space, ?_⟩
    cases hn with
    | intro hm hx =>
      rw [List.forall_mem_append]
      exact ⟨hm.ne_space, hx.ne_space⟩
  | name hc hcs =>
    rw [List.forall_mem_cons]
    constructor
    · rintro rfl
      exact absurd hc (by decide)
    · rintro d hd rfl
      exact absurd (hcs _ hd) (by decide)
  | symbol s => cases s <;> simp [Symbol.chars]
  | newline hb => cases hb <;> simp
  | _ => simp

/-- The longest word stays the longest where a space follows further on. -/
theorem Longest.extend {after : Bool} {kind : LexemeKind} {w f : List Char} (h : Longest after (w ++ f) kind w)
    (g : List Char) : Longest after (w ++ (f ++ ' ' :: g)) kind w := by
  refine ⟨h.word, List.prefix_append w _, fun kind' w' hw' hstarts => ?_⟩
  rw [← List.append_assoc] at hstarts
  by_cases hle : w'.length ≤ (w ++ f).length
  · -- the word lies before the space
    exact h.longest kind' w' hw' (List.prefix_of_prefix_length_le hstarts (List.prefix_append _ _) hle)
  · -- the word holds the space
    exfalso
    have hahead : (w ++ f) ++ [' '] <+: w ++ f ++ ' ' :: g := ⟨g, by simp⟩
    have hspace : (w ++ f) ++ [' '] <+: w' := by
      apply List.prefix_of_prefix_length_le hahead hstarts
      rw [List.length_append, List.length_singleton]
      omega
    have hmem : ' ' ∈ w' := hspace.subset (by simp)
    exact Word.ne_space hw' ' ' hmem rfl

end CurveScript.Words
