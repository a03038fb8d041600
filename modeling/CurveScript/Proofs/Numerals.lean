/-
The texts of numbers.

A float is shown with a point or an exponent, an integer with neither, so each text is a number of the language, of the
kind that it was written for. Reading the digits and the exponent of a float's text gives the decimal number that was
laid out, and that is rounded to the float itself.

Results:
- `decimalText_writes`: a layout writes its decimal number.
- `Writes.read`: what is written is read as the nearest double.
- `chars_read`: the text of a finite double is read as that double, the sign of a zero included.
- `literal_float`, `literal_integer`: the literals that the texts of numbers make.
-/
import CurveScript.Double.Layout
import CurveScript.Proofs.Munching
import CurveScript.Proofs.ShortestDigits

namespace CurveScript.Numerals

open CurveScript.Double CurveScript.Words CurveScript.Munching CurveScript.Rounding CurveScript.Doubles
  CurveScript.Operations CurveScript.Patterns CurveScript.Decimals CurveScript.ShortestDigits

/-! ## Digits -/

theorem isDigit_digitChars (n : ℕ) : ∀ c ∈ digitChars n, c.isDigit = true :=
  fun _ hc => Nat.isDigit_of_mem_toDigits (by decide) (by decide) hc

theorem digitChars_ne_nil (n : ℕ) : digitChars n ≠ [] := Nat.toDigits_ne_nil

theorem digitsValue_digitChars (n : ℕ) : digitsValue (digitChars n) = n := Nat.ofDigitChars_ten_toDigits

theorem digitsValue_zeros (k : ℕ) (ds : List Char) : digitsValue (List.replicate k '0' ++ ds) = digitsValue ds := by
  change Nat.ofDigitChars 10 _ 0 = Nat.ofDigitChars 10 ds 0
  rw [Nat.ofDigitChars_append, Nat.ofDigitChars_replicate_zero, Nat.mul_zero]

theorem digitsValue_scaled (ds : List Char) (k : ℕ) :
    digitsValue (ds ++ List.replicate k '0') = 10 ^ k * digitsValue ds := by
  change Nat.ofDigitChars 10 _ 0 = 10 ^ k * Nat.ofDigitChars 10 ds 0
  rw [Nat.ofDigitChars_append, Nat.ofDigitChars_replicate_zero]

theorem isDigit_zeros (k : ℕ) : ∀ c ∈ List.replicate k '0', c.isDigit = true := by
  intro c hc
  rw [List.eq_of_mem_replicate hc]
  rfl

/-! ## Texts of floats -/

/-- the number that the parts of a text write -/
def written (p : Parts) : ℚ := digitsValue (p.whole ++ p.fraction) * 10 ^ (p.exponent - p.fraction.length)

/-- the text is a number with a point or an exponent, and writes `q` -/
structure Writes (w : List Char) (q : ℚ) : Prop where
  number : Number w
  float : writesFloat w = true
  parts : ∃ p, parts? w = some p ∧ written p = q

theorem writes_point {ds fs : List Char} (hne : ds ≠ []) (hds : ∀ d ∈ ds, d.isDigit = true)
    (hfs : ∀ d ∈ fs, d.isDigit = true) :
    Writes (ds ++ '.' :: fs) (digitsValue (ds ++ fs) * 10 ^ (-(fs.length : ℤ))) := by
  refine ⟨.plain (.point (Or.inl hne) hds hfs), by simp [writesFloat], ⟨ds, fs, 0⟩, ?_, by rw [written, zero_sub]⟩
  have hparts := parts_point (x := []) (e := 0) hds nofun rfl (Or.inl hne) hfs
  rwa [List.append_nil] at hparts

/-- The zeros after the point count as places. -/
theorem fraction_writes {ds : List Char} (hds : ∀ d ∈ ds, d.isDigit = true) (k : ℕ) :
    Writes ('0' :: '.' :: (List.replicate k '0' ++ ds)) (digitsValue ds * 10 ^ (-(k : ℤ) - ds.length)) := by
  have hzeros : ∀ d ∈ List.replicate k '0' ++ ds, d.isDigit = true := by
    rw [List.forall_mem_append]
    exact ⟨isDigit_zeros k, hds⟩
  have h := writes_point (List.cons_ne_nil '0' []) (isDigit_zeros 1) hzeros
  have hvalue : digitsValue (['0'] ++ (List.replicate k '0' ++ ds)) = digitsValue ds := by
    rw [← List.append_assoc]
    exact digitsValue_zeros (k + 1) ds
  have hexponent : -((List.replicate k '0' ++ ds).length : ℤ) = -(k : ℤ) - ds.length := by
    rw [List.length_append, List.length_replicate]
    omega
  rwa [hvalue, hexponent] at h

/-- The zeros before the point, and the one after it, are places that are filled up. -/
theorem whole_writes {ds : List Char} (hne : ds ≠ []) (hds : ∀ d ∈ ds, d.isDigit = true) (k : ℕ) :
    Writes (ds ++ List.replicate k '0' ++ ['.', '0']) (digitsValue ds * 10 ^ (k : ℤ)) := by
  have hlonger : ∀ d ∈ ds ++ List.replicate k '0', d.isDigit = true := by
    rw [List.forall_mem_append]
    exact ⟨hds, isDigit_zeros k⟩
  have h := @writes_point _ ['0'] (List.append_ne_nil_of_left_ne_nil hne _) hlonger (isDigit_zeros 1)
  have hvalue : (digitsValue (ds ++ List.replicate k '0' ++ ['0']) : ℚ) * 10 ^ (-1 : ℤ) =
      digitsValue ds * 10 ^ (k : ℤ) := by
    have hscaled := digitsValue_scaled ds (k + 1)
    rw [List.replicate_succ', ← List.append_assoc] at hscaled
    rw [hscaled, zpow_natCast]
    push_cast
    ring
  rwa [List.length_singleton, Nat.cast_one, hvalue] at h

/-- **Digits with a point somewhere**, before, among or after them. -/
theorem positionalText_writes {l : Layout} (hl : l.wholeFraction = true) {ds : List Char} (hne : ds ≠ [])
    (hds : ∀ d ∈ ds, d.isDigit = true) (whole : ℤ) :
    Writes (positionalText l ds whole) (digitsValue ds * 10 ^ (whole - ds.length)) := by
  unfold positionalText
  rw [if_pos hl]
  split
  · next hfraction =>
    have h := fraction_writes hds (-whole).toNat
    rwa [show -((-whole).toNat : ℤ) = whole by omega] at h
  · dsimp only
    split
    · next hlong =>
      have h := whole_writes hne hds (whole.toNat - ds.length)
      rwa [show ((whole.toNat - ds.length : ℕ) : ℤ) = whole - ds.length by omega] at h
    · next hshort =>
      have hsome : ds.take whole.toNat ≠ [] := by
        simp [hne]
        omega
      have h := writes_point hsome (fun d hd => hds d (List.mem_of_mem_take hd)) fun d hd =>
        hds d ((List.drop_subset whole.toNat ds) hd)
      have hexponent : -((ds.drop whole.toNat).length : ℤ) = whole - ds.length := by
        rw [List.length_drop]
        omega
      rwa [List.take_append_drop, hexponent] at h

/-- The exponent of a text is read as it was written. -/
theorem exponent?_text (l : Layout) (e : ℤ) :
    exponent? ('e' :: ((if e < 0 then ['-'] else if l.plusSign then ['+'] else []) ++ digitChars e.natAbs)) =
      some e := by
  have hdigits : exponentDigits? (digitChars e.natAbs) = some e.natAbs := by
    rw [exponentDigits?, if_pos ⟨digitChars_ne_nil _, List.all_eq_true.2 (isDigit_digitChars _)⟩,
      digitsValue_digitChars]
  split
  · next hneg =>
    simp [exponent?, hdigits, abs_of_neg hneg]
  · next hnonneg =>
    have hself : |e| = e := abs_of_nonneg (not_lt.1 hnonneg)
    split
    · simp [exponent?, hdigits, hself]
    · obtain ⟨d, ds, hcons⟩ := List.exists_cons_of_ne_nil (digitChars_ne_nil e.natAbs)
      have hd := isDigit_digitChars e.natAbs d (by rw [hcons]; exact List.mem_cons_self)
      have hplus : d ≠ '+' := by rintro rfl; exact absurd hd (by decide)
      have hminus : d ≠ '-' := by rintro rfl; exact absurd hd (by decide)
      rw [hcons] at hdigits ⊢
      simp [exponent?, hdigits, hplus, hminus, hself]

theorem mark_text (l : Layout) (e : ℤ) : Mark ('e' :: (if e < 0 then ['-'] else if l.plusSign then ['+'] else [])) := by
  refine .intro (Or.inl rfl) ?_
  split
  · exact .minus
  · split
    · exact .plus
    · exact .none

/-- **One digit before the point**, and an exponent. -/
theorem exponentText_writes (l : Layout) {ds : List Char} (hne : ds ≠ []) (hds : ∀ d ∈ ds, d.isDigit = true) (e : ℤ) :
    Writes (exponentText l ds e) (digitsValue ds * 10 ^ (e + 1 - ds.length)) := by
  obtain ⟨d, fs, rfl⟩ := List.exists_cons_of_ne_nil hne
  rw [List.forall_mem_cons] at hds
  have hd : ∀ c ∈ [d], c.isDigit = true := by
    rw [List.forall_mem_singleton]
    exact hds.1
  have hmark := mark_text l e
  have hexponent := exponent?_text l e
  have hstop := hmark.stop (digitChars e.natAbs)
  unfold exponentText
  generalize (if e < 0 then ['-'] else if l.plusSign then ['+'] else []) = s at hmark hexponent hstop ⊢
  simp only [List.take_succ_cons, List.take_zero, List.drop_succ_cons, List.drop_zero, List.length_cons]
  rw [List.cons_append] at hstop
  cases fs with
  | nil =>
    refine ⟨?_, by simp [writesFloat], ⟨[d], [], e⟩, parts_whole hd hstop hexponent (by simp), ?_⟩
    · exact .exponent (.whole (by simp) hd) hmark (digitChars_ne_nil _) (isDigit_digitChars _)
    · rw [written]
      simp
  | cons f fs =>
    have hfs := hds.2
    refine ⟨?_, by simp [writesFloat], ⟨[d], f :: fs, e⟩, ?_, ?_⟩
    · exact .exponent (.point (Or.inl (by simp)) hd hfs) hmark (digitChars_ne_nil _) (isDigit_digitChars _)
    · have hparts := parts_point hd hstop hexponent (Or.inl (by simp)) hfs
      simpa using hparts
    · rw [written]
      simp

/-- **A layout writes its decimal number.** -/
theorem decimalText_writes {l : Layout} (hl : l.wholeFraction = true) (d : Decimal) :
    Writes (l.decimalText d) (ShortestDigits.number d) := by
  have hne := digitChars_ne_nil d.digits
  have hds := isDigit_digitChars d.digits
  -- the exponent of the leading digit, turned back into that of the last one
  have hlast : d.exponent + ((digitChars d.digits).length : ℤ) - 1 + 1 - (digitChars d.digits).length = d.exponent := by
    ring
  unfold Layout.decimalText
  dsimp only
  split
  · have h := positionalText_writes hl hne hds (d.exponent + (digitChars d.digits).length - 1 + 1)
    rwa [digitsValue_digitChars, hlast] at h
  · have h := exponentText_writes l hne hds (d.exponent + (digitChars d.digits).length - 1)
    rwa [digitsValue_digitChars, hlast] at h

theorem unsignedText_writes {l : Layout} (hl : l.wholeFraction = true) (b : Binary) :
    Writes (l.unsignedText b) (if b.mantissa = 0 then 0 else ShortestDigits.number (b.shortest l.tie)) := by
  unfold Layout.unsignedText
  split
  · have h := positionalText_writes hl (List.cons_ne_nil '0' []) (isDigit_zeros 1) 1
    have hzero : digitsValue ['0'] = 0 := rfl
    rwa [hzero, Nat.cast_zero, zero_mul] at h
  · exact decimalText_writes hl _

/-! ## Reading the texts -/

/-- **What is written is read as the nearest double**, and after a minus sign as its negative. -/
theorem Writes.read {w : List Char} {q : ℚ} (h : Writes w q) :
    ∃ x, ofChars? w = some x ∧ ofChars? ('-' :: w) = some (-x) ∧ Computes x q ∧ (q = 0 → x = 0.0) := by
  obtain ⟨p, hp, rfl⟩ := h.parts
  refine ⟨p.value, ?_, by simp [ofChars?, hp], ofDecimal_computes _ _, fun hzero => ?_⟩
  · unfold ofChars?
    split
    · exact absurd (head_of_number (.inl h.number)) (by decide)
    · exact absurd (head_of_number (.inl h.number)) (by decide)
    · rw [hp]
      rfl
  · have hten : (10 : ℚ) ^ (p.exponent - p.fraction.length) ≠ 0 := (zpow_pos (by norm_num) _).ne'
    have hdigits : digitsValue (p.whole ++ p.fraction) = 0 := by
      rw [written, mul_eq_zero, or_iff_left hten] at hzero
      exact_mod_cast hzero
    rw [Parts.value, ofDecimal, if_pos hdigits]

/-- What the text without the sign is read as. -/
theorem unsigned_value {l : Layout} {x y : Float} (hx : x.isFinite = true)
    (hy : Computes y (if (toBinary x).mantissa = 0 then 0 else ShortestDigits.number ((toBinary x).shortest l.tie))) :
    y.isFinite = true ∧ value y = magnitude (toBinary x) := by
  have hnearest : nearest (if (toBinary x).mantissa = 0 then 0
      else ShortestDigits.number ((toBinary x).shortest l.tie)) = magnitude (toBinary x) := by
    split
    · next hzero =>
      rw [nearest_zero, magnitude, hzero]
      simp
    · next hne =>
      obtain ⟨hcanonical, hfits⟩ := canonical_toBinary hx
      exact shortest_nearest hcanonical hfits (Nat.pos_of_ne_zero hne) l.tie
  rw [← hnearest]
  apply hy.finite
  have habs := abs_value_lt x
  rw [hnearest]
  rw [value_eq_magnitude hx] at habs
  split at habs
  · rwa [abs_neg] at habs
  · exact habs

/-- A double is its size with its sign. -/
theorem eq_of_size {x y : Float} (hx : x.isFinite = true) (hy : y.isFinite = true)
    (hsize : value y = magnitude (toBinary x)) (hzero : (toBinary x).mantissa = 0 → y = 0.0) :
    (if isNegative x then -y else y) = x := by
  have hvalue := value_eq_magnitude hx
  by_cases hm : (toBinary x).mantissa = 0
  · have hfields := toBinary_of_mantissa_eq_zero hx hm
    obtain rfl := hzero hm
    apply toBinary_injective
    rw [hfields]
    cases isNegative x <;> rfl
  · have hpos : 0 < magnitude (toBinary x) := scaled_pos (Nat.pos_of_ne_zero hm) _
    cases hsign : isNegative x with
    | false =>
      rw [hsign] at hvalue
      have hne : value x ≠ 0 := by
        rw [hvalue]
        exact hpos.ne'
      rw [if_neg (by decide)]
      exact eq_of_value hx hy hne (hsize.trans hvalue.symm)
    | true =>
      rw [hsign] at hvalue
      obtain ⟨hneg, hnegvalue⟩ := neg_value hy
      have hne : value x ≠ 0 := by
        rw [hvalue]
        exact neg_ne_zero.2 hpos.ne'
      rw [if_pos rfl]
      exact eq_of_value hx hneg hne (by rw [hnegvalue, hsize, hvalue, if_pos rfl])

/-- **The text of a finite double is read as that double**, bit for bit. -/
theorem chars_read {l : Layout} (hl : l.wholeFraction = true) {x : Float} (hx : x.isFinite = true) :
    ofChars? (l.chars x) = some x := by
  obtain ⟨y, hread, hread', hcomputes, hzero⟩ := (unsignedText_writes hl (toBinary x)).read
  obtain ⟨hy, hsize⟩ := unsigned_value hx hcomputes
  have hself := eq_of_size hx hy hsize fun hm => hzero (if_pos hm)
  have hnan : ¬ x.isNaN = true := by rw [isNaN_of_isFinite hx]; decide
  unfold Layout.chars
  rw [if_neg hnan, if_pos hx]
  cases hsign : isNegative x with
  | false =>
    rw [hsign] at hself
    exact hread.trans (congrArg some hself)
  | true =>
    rw [hsign] at hself
    exact hread'.trans (congrArg some hself)

theorem chars_word {l : Layout} (hl : l.wholeFraction = true) {x : Float} (hx : x.isFinite = true) :
    Word false .number (l.chars x) ∧ writesFloat (l.chars x) = true := by
  have hwrites := unsignedText_writes hl (toBinary x)
  have hnan : ¬ x.isNaN = true := by rw [isNaN_of_isFinite hx]; decide
  have hfloat := hwrites.float
  unfold Layout.chars
  rw [if_neg hnan, if_pos hx]
  unfold writesFloat at hfloat ⊢
  split
  · refine ⟨.number .minus hwrites.number nofun, ?_⟩
    rw [List.any_append, hfloat, Bool.or_true]
  · exact ⟨.number .none hwrites.number nofun, hfloat⟩

/-- **The literal of a float's text** is the float. -/
theorem literal_float {x : Float} (hx : x.isFinite = true) (span : Span) :
    Literal.read (valueLayout.chars x) span = .ok (.float x) := by
  have hl : valueLayout.wholeFraction = true := rfl
  rw [Literal.read, if_pos (chars_word hl hx).2, chars_read hl hx]
  exact if_pos hx

/-! ## Texts of integers -/

theorem integer_word (n : Int64) : Word false .number (Integer.chars n) ∧ writesFloat (Integer.chars n) = false := by
  have hnumber : Number (digitChars n.toInt.natAbs) :=
    .plain (.whole (digitChars_ne_nil _) (isDigit_digitChars _))
  have hdigits : writesFloat (digitChars n.toInt.natAbs) = false := by
    rw [writesFloat, List.any_eq_false]
    intro c hc hmark
    have hd := isDigit_digitChars _ c hc
    have hcases : (c = '.' ∨ c = 'e') ∨ c = 'E' := by simpa using hmark
    rcases hcases with (rfl | rfl) | rfl <;> exact absurd hd (by decide)
  unfold Integer.chars
  unfold writesFloat at hdigits ⊢
  split
  · refine ⟨.number .minus hnumber nofun, ?_⟩
    rw [List.any_append]
    exact hdigits
  · exact ⟨.number .none hnumber nofun, hdigits⟩

theorem signedValue_chars (n : Int64) : signedValue (Integer.chars n) = n.toInt := by
  have hvalue := digitsValue_digitChars n.toInt.natAbs
  unfold Integer.chars
  change digitsValue (Nat.toDigits 10 n.toInt.natAbs) = n.toInt.natAbs at hvalue
  split
  · simp only [List.singleton_append, signedValue, hvalue]
    omega
  · rw [List.nil_append]
    have hdigit := isDigit_digitChars n.toInt.natAbs
    change ∀ c ∈ Nat.toDigits 10 n.toInt.natAbs, c.isDigit = true at hdigit
    unfold signedValue
    split
    · next ds hds => exact absurd (hdigit '-' (by rw [hds]; exact List.mem_cons_self)) (by decide)
    · next ds hds => exact absurd (hdigit '+' (by rw [hds]; exact List.mem_cons_self)) (by decide)
    · rw [hvalue]
      omega

/-- **The literal of an integer's text** is the integer, the least one included. -/
theorem literal_integer (n : Int64) (span : Span) : Literal.read (Integer.chars n) span = .ok (.integer n) := by
  rw [Literal.read, (integer_word n).2, signedValue_chars, Integer.ofInt?_toInt]
  rfl

end CurveScript.Numerals
