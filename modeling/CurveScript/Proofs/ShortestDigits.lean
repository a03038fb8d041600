/-
The shortest digits of a double read back to it.

The numbers that are rounded to one double form an interval around it. Its ends are halfway to the neighbours, the lower
one nearer where the double is a power of two (`nearest_of_holds`). The search for digits tests grids of decimal numbers
that become finer, and takes only points of the interval. The last grid has a step below the width of the interval, so
one of its two points next to the double lies inside and the search finds one (`search_holds`).

Results:
- `holds_iff`, `below_iff`: the tests in whole numbers.
- `place_eq`, `nearest_of_holds`: the interval of numbers that are rounded to a double.
- `exists_pick`, `leading_le`: the last grid is fine enough, and it starts at the leading digit.
- `search_holds`, `shortest_nearest`: what the search finds is rounded to the double.
-/
import CurveScript.Double.Shortest
import CurveScript.Proofs.Decimals

namespace CurveScript.ShortestDigits

open CurveScript.Double CurveScript.Rounding CurveScript.Doubles CurveScript.Operations CurveScript.Patterns
  CurveScript.Decimals

/-! ## Numbers of an interval -/

/-- the number that a decimal writes -/
def number (d : Decimal) : ℚ := d.digits * 10 ^ d.exponent

/-- a whole number of the interval's units -/
def units (i : Interval) (n : ℕ) : ℚ := n * 2 ^ i.exponent

/-- whether a number belongs to the interval -/
def Holds (i : Interval) (q : ℚ) : Prop :=
  if i.closed then units i i.low ≤ q ∧ q ≤ units i i.high else units i i.low < q ∧ q < units i i.high

theorem Holds.bounds {i : Interval} {q : ℚ} (h : Holds i q) : units i i.low ≤ q ∧ q ≤ units i i.high := by
  unfold Holds at h
  split at h
  · exact h
  · exact ⟨h.1.le, h.2.le⟩

theorem Holds.strict {i : Interval} {q : ℚ} (h : Holds i q) (hopen : i.closed = false) :
    units i i.low < q ∧ q < units i i.high := by
  rw [Holds, hopen] at h
  simpa using h

theorem holds_of_lt {i : Interval} {q : ℚ} (hlow : units i i.low < q) (hhigh : q < units i i.high) : Holds i q := by
  unfold Holds
  split
  · exact ⟨hlow.le, hhigh.le⟩
  · exact ⟨hlow, hhigh⟩

section Scale

variable (p e : ℤ)

theorem scale_pos : 0 < (scale p e).1 ∧ 0 < (scale p e).2 :=
  ⟨Nat.mul_pos (Nat.pow_pos (by decide)) (Nat.pow_pos (by decide)),
    Nat.mul_pos (Nat.pow_pos (by decide)) (Nat.pow_pos (by decide))⟩

/-- A power is a quotient of two powers with exponents that are not negative. -/
theorem zpow_eq_div (b : ℕ) (hb : (b : ℚ) ≠ 0) (k : ℤ) : (b : ℚ) ^ k = (b ^ k.toNat : ℕ) / (b ^ (-k).toNat : ℕ) := by
  have hsplit : k = (k.toNat : ℤ) - ((-k).toNat : ℤ) := by omega
  conv_lhs => rw [hsplit, zpow_sub₀ hb, zpow_natCast, zpow_natCast]
  push_cast
  rfl

theorem scale_eq : ((scale p e).1 : ℚ) / (scale p e).2 = 2 ^ p / 10 ^ e := by
  have htwo := zpow_eq_div 2 (by norm_num) p
  have hten := zpow_eq_div 10 (by norm_num) e
  push_cast at htwo hten
  rw [htwo, hten, div_div_div_eq]
  simp only [scale, Nat.pow_eq]
  push_cast
  rfl

end Scale

theorem units_le_iff (i : Interval) (e : ℤ) (n c : ℕ) :
    n * (scale i.exponent e).1 ≤ c * (scale i.exponent e).2 ↔ units i n ≤ c * 10 ^ e := by
  have hpos : (0 : ℚ) < (scale i.exponent e).2 := Nat.cast_pos.2 (scale_pos _ _).2
  have hten : (0 : ℚ) < 10 ^ e := zpow_pos (by norm_num) e
  calc n * (scale i.exponent e).1 ≤ c * (scale i.exponent e).2
      ↔ (n : ℚ) * (scale i.exponent e).1 ≤ c * (scale i.exponent e).2 := by norm_cast
    _ ↔ (n : ℚ) * ((scale i.exponent e).1 / (scale i.exponent e).2) ≤ c := by rw [← mul_div_assoc, div_le_iff₀ hpos]
    _ ↔ units i n ≤ c * 10 ^ e := by rw [scale_eq, ← mul_div_assoc, div_le_iff₀ hten, units]

theorem le_units_iff (i : Interval) (e : ℤ) (n c : ℕ) :
    c * (scale i.exponent e).2 ≤ n * (scale i.exponent e).1 ↔ c * 10 ^ e ≤ units i n := by
  have hpos : (0 : ℚ) < (scale i.exponent e).2 := Nat.cast_pos.2 (scale_pos _ _).2
  have hten : (0 : ℚ) < 10 ^ e := zpow_pos (by norm_num) e
  calc c * (scale i.exponent e).2 ≤ n * (scale i.exponent e).1
      ↔ (c : ℚ) * (scale i.exponent e).2 ≤ n * (scale i.exponent e).1 := by norm_cast
    _ ↔ (c : ℚ) ≤ n * ((scale i.exponent e).1 / (scale i.exponent e).2) := by rw [← mul_div_assoc, le_div_iff₀ hpos]
    _ ↔ c * 10 ^ e ≤ units i n := by rw [scale_eq, ← mul_div_assoc, le_div_iff₀ hten, units]

/-- **The test of a candidate** is whether its number belongs to the interval. -/
theorem holds_iff (i : Interval) (e : ℤ) (c : ℕ) :
    i.holds (scale i.exponent e) c = true ↔ Holds i (c * 10 ^ e) := by
  unfold Interval.holds Holds
  split
  · rw [Bool.and_eq_true, decide_eq_true_eq, decide_eq_true_eq, units_le_iff, le_units_iff]
  · rw [Bool.and_eq_true, decide_eq_true_eq, decide_eq_true_eq, ← not_le, ← not_le, le_units_iff, units_le_iff, not_le,
      not_le]

theorem below_iff (i : Interval) (e : ℤ) : i.below e = true ↔ units i i.value < 10 ^ e := by
  have h := le_units_iff i e i.value 1
  rw [one_mul, Nat.cast_one, one_mul] at h
  rw [Interval.below, decide_eq_true_eq, ← not_le, h, not_le]

/-! ## The interval of a double -/

/-- The last place of a number. -/
theorem place_eq {q : ℚ} {e : ℤ} (hq : 0 < q) (hlow : (2 : ℚ) ^ (e + 52) ≤ q ∨ e = -1074) (hhigh : q < 2 ^ (e + 53))
    (he : -1074 ≤ e) : place q = e := by
  apply le_antisymm
  · have hlog : Int.log 2 |q| < e + 53 := by
      rw [abs_of_pos hq, ← Int.lt_zpow_iff_log_lt (b := 2) one_lt_two hq]
      exact_mod_cast hhigh
    exact max_le (by omega) he
  · apply le_place
    rw [abs_of_pos hq]
    exact hlow.imp id le_of_eq

/-- A mantissa of the right size that is near is the one that is rounded to. -/
theorem nearest_of_near {q : ℚ} {e : ℤ} {m : ℕ} (hplace : place q = e)
    (h : |q / 2 ^ e - m| < 1 / 2 ∨ |q / 2 ^ e - m| ≤ 1 / 2 ∧ m % 2 = 0) : nearest q = m * 2 ^ e := by
  have hm : nearestInt (q / 2 ^ e) = (m : ℤ) := by
    apply nearestInt_eq
    push_cast
    exact h.imp id fun h => ⟨h.1, by omega⟩
  rw [nearest, hplace, hm, Int.cast_natCast]


/-- The units are quarters of the last place. -/
theorem units_interval (b : Binary) (n : ℕ) : units b.interval n = n / 4 * 2 ^ b.exponent := by
  simp only [units, Binary.interval, zpow_sub₀ (two_ne_zero : (2 : ℚ) ≠ 0)]
  norm_num
  ring

theorem units_value (b : Binary) : units b.interval b.interval.value = magnitude b := by
  rw [units_interval, magnitude]
  simp only [Binary.interval]
  push_cast
  ring

theorem zpow_below (e : ℤ) : (2 : ℚ) ^ (e - 1) = 2 ^ e / 2 := by
  rw [zpow_sub_one₀ two_ne_zero, div_eq_mul_inv]

/-- Below a power of two the last place is half as large. -/
theorem nearest_of_narrow {b : Binary} (hm : b.mantissa = impliedBit) (he : -1074 < b.exponent) {q : ℚ}
    (h : Holds b.interval q) (hshort : q < 2 ^ (b.exponent + 52)) : nearest q = magnitude b := by
  have hplace : (0 : ℚ) < 2 ^ b.exponent := zpow_pos two_pos _
  have hpower : (2 : ℚ) ^ (b.exponent + 52) = 2 ^ 52 * 2 ^ b.exponent := by
    rw [zpow_add₀ two_ne_zero, mul_comm]
    rfl
  have hlow : (2 ^ 52 - 1 / 4) * 2 ^ b.exponent ≤ q := by
    refine le_trans (le_of_eq ?_) h.bounds.1
    rw [units_interval]
    simp only [Binary.interval, hm, he, and_self, if_true]
    norm_num [impliedBit]
  have hq : 0 < q := lt_of_lt_of_le (by positivity) hlow
  have hbelow : place q = b.exponent - 1 := by
    refine place_eq hq (Or.inl ?_) ?_ (by omega)
    · rw [show b.exponent - 1 + 52 = b.exponent + 52 - 1 by ring, zpow_below, hpower]
      linarith
    · rwa [show b.exponent - 1 + 53 = b.exponent + 52 by ring]
  have hnear := nearest_of_near (m := 2 ^ 53) hbelow (Or.inr ⟨?_, by norm_num⟩)
  · rw [hnear, magnitude, hm, zpow_below]
    norm_num [impliedBit]
    ring
  · obtain ⟨r, rfl⟩ : ∃ r, q = r * 2 ^ b.exponent := ⟨q / 2 ^ b.exponent, (div_mul_cancel₀ q hplace.ne').symm⟩
    have hdouble : r * 2 ^ b.exponent / 2 ^ (b.exponent - 1) = 2 * r := by
      rw [zpow_below]
      field_simp
    have hr := le_of_mul_le_mul_right hlow hplace
    have hr' : r < 2 ^ 52 := lt_of_mul_lt_mul_right (hpower ▸ hshort) hplace.le
    rw [hdouble, abs_le]
    push_cast
    constructor <;> linarith

section Interval

variable {b : Binary} (hcanonical : Canonical b.mantissa b.exponent) (hpos : 0 < b.mantissa)

include hpos

/-- How far the numbers of the interval are from the mantissa, in last places. -/
theorem near_of_holds {q : ℚ} (h : Holds b.interval q) :
    |q / 2 ^ b.exponent - b.mantissa| < 1 / 2 ∨
      |q / 2 ^ b.exponent - b.mantissa| ≤ 1 / 2 ∧ b.mantissa % 2 = 0 := by
  have hplace : (0 : ℚ) < 2 ^ b.exponent := zpow_pos two_pos _
  have hm : (1 : ℚ) ≤ b.mantissa := by exact_mod_cast hpos
  have hunit : ∀ n : ℕ, units b.interval n / 2 ^ b.exponent = n / 4 := by
    intro n
    rw [units_interval, mul_div_cancel_right₀ _ hplace.ne']
  have hlow : (b.mantissa : ℚ) - 1 / 2 ≤ (b.interval.low : ℚ) / 4 := by
    have hnat : 4 * b.mantissa ≤ b.interval.low + 2 := by
      simp only [Binary.interval]
      split <;> omega
    have : (4 : ℚ) * b.mantissa ≤ b.interval.low + 2 := by exact_mod_cast hnat
    linarith
  have hhigh : (b.interval.high : ℚ) / 4 = b.mantissa + 1 / 2 := by
    simp only [Binary.interval]
    push_cast
    ring
  by_cases heven : b.mantissa % 2 = 0
  · obtain ⟨hl, hh⟩ := h.bounds
    rw [← div_le_div_iff_of_pos_right hplace, hunit] at hl hh
    refine Or.inr ⟨abs_le.2 ⟨by linarith, by linarith⟩, heven⟩
  · obtain ⟨hl, hh⟩ := h.strict (by simpa [Binary.interval] using heven)
    rw [← div_lt_div_iff_of_pos_right hplace, hunit] at hl hh
    exact Or.inl (abs_lt.2 ⟨by linarith, by linarith⟩)

include hcanonical

/-- **What belongs to the interval of a double is rounded to it.** -/
theorem nearest_of_holds {q : ℚ} (h : Holds b.interval q) : nearest q = magnitude b := by
  have hnear := near_of_holds hpos h
  have hle : |q / 2 ^ b.exponent - b.mantissa| ≤ 1 / 2 := hnear.elim le_of_lt And.left
  have hplace : (0 : ℚ) < 2 ^ b.exponent := zpow_pos two_pos _
  have hm : (1 : ℚ) ≤ b.mantissa := by exact_mod_cast hpos
  have hlt : (b.mantissa : ℚ) ≤ 2 ^ 53 - 1 := by
    have : b.mantissa + 1 ≤ 2 ^ 53 := hcanonical.lt
    have : (b.mantissa : ℚ) + 1 ≤ 2 ^ 53 := by exact_mod_cast this
    linarith
  obtain ⟨r, rfl⟩ : ∃ r, q = r * 2 ^ b.exponent := ⟨q / 2 ^ b.exponent, (div_mul_cancel₀ q hplace.ne').symm⟩
  rw [mul_div_cancel_right₀ r hplace.ne', abs_le] at hle
  have hr : 0 < r * 2 ^ b.exponent := mul_pos (by linarith) hplace
  have hscaled : ∀ k : ℤ, (2 : ℚ) ^ (b.exponent + k) = 2 ^ k * 2 ^ b.exponent := by
    intro k
    rw [zpow_add₀ two_ne_zero, mul_comm]
  by_cases hnormal : (2 : ℚ) ^ (b.exponent + 52) ≤ r * 2 ^ b.exponent ∨ b.exponent = -1074
  · refine nearest_of_near (place_eq hr hnormal ?_ hcanonical.low) hnear
    rw [hscaled]
    exact mul_lt_mul_of_pos_right (by norm_num; linarith) hplace
  · -- only a power of two has numbers of a smaller place in its interval
    rw [not_or, not_le] at hnormal
    obtain ⟨hshort, hexponent⟩ := hnormal
    have hfull : 2 ^ 52 ≤ b.mantissa := hcanonical.normal.resolve_right hexponent
    have hpower : b.mantissa = impliedBit := by
      have hr52 : r < 2 ^ 52 := by
        rw [hscaled] at hshort
        exact lt_of_mul_lt_mul_right hshort hplace.le
      have hmlt : (b.mantissa : ℚ) < 2 ^ 52 + 1 := by linarith
      have : b.mantissa < 2 ^ 52 + 1 := by exact_mod_cast hmlt
      unfold impliedBit
      omega
    have hlow := hcanonical.low
    exact nearest_of_narrow hpower (by omega) h hshort

end Interval

/-! ## The search -/

section Search

variable {i : Interval} {tie : Tie} {e : ℤ}

/-- What is picked belongs to the interval. -/
theorem holds_of_pick {c : ℕ} (h : i.pick? tie e = some c) : Holds i (c * 10 ^ e) := by
  rw [← holds_iff]
  unfold Interval.pick? at h
  dsimp only at h
  split at h
  · cases h
  · next hdown hup =>
    cases h
    exact hdown
  · next hdown hup =>
    cases h
    exact hup
  · next hdown hup =>
    split at h
    · cases h
      exact hdown
    · split at h
      · cases h
        exact hup
      · cases tie with
        | up =>
          cases h
          exact hup
        | toEven =>
          cases h
          split
          · exact hdown
          · exact hup

/-- Nothing is picked only if both points next to the value lie outside. -/
theorem not_holds_of_pick (h : i.pick? tie e = none) :
    ∃ c : ℕ, c * 10 ^ e ≤ units i i.value ∧ units i i.value ≤ (c + 1 : ℕ) * 10 ^ e ∧
      ¬ Holds i (c * 10 ^ e) ∧ ¬ Holds i ((c + 1 : ℕ) * 10 ^ e) := by
  have hpos := (scale_pos i.exponent e).2
  refine ⟨i.value * (scale i.exponent e).1 / (scale i.exponent e).2, ?_, ?_, ?_⟩
  · rw [← le_units_iff]
    exact Nat.div_mul_le_self _ _
  · rw [← units_le_iff, mul_comm (_ + 1)]
    exact (Nat.lt_mul_div_succ _ hpos).le
  · rw [← holds_iff, ← holds_iff, Bool.not_eq_true, Bool.not_eq_true]
    unfold Interval.pick? at h
    dsimp only at h
    split at h
    · next hdown hup => exact ⟨hdown, hup⟩
    · cases h
    · cases h
    · split at h
      · cases h
      · split at h
        · cases h
        · cases tie <;> cases h

/-- **A grid with a step below the width of the interval has a point in it**, next to the value. -/
theorem exists_pick (hlow : i.low < i.value) (hhigh : i.value < i.high)
    (hstep : (10 : ℚ) ^ e < units i i.high - units i i.low) : ∃ c, i.pick? tie e = some c := by
  cases hpick : i.pick? tie e with
  | some c => exact ⟨c, rfl⟩
  | none =>
    exfalso
    have hunit : (0 : ℚ) < 2 ^ i.exponent := zpow_pos two_pos _
    have hinside : units i i.low < units i i.value ∧ units i i.value < units i i.high := by
      unfold units
      constructor <;> gcongr
    obtain ⟨c, hdown, hup, hmiss, hmiss'⟩ := not_holds_of_pick hpick
    push_cast at hup hmiss'
    have hbelow : c * 10 ^ e ≤ units i i.low := by
      by_contra hl
      exact hmiss (holds_of_lt (not_le.1 hl) (by linarith))
    have habove : units i i.high ≤ (c + 1) * 10 ^ e := by
      by_contra hh
      exact hmiss' (holds_of_lt (by linarith) (not_le.1 hh))
    linarith

/-- **The search finds a number of the interval** if its last grid has one. -/
theorem search_holds {more : ℕ} (h : ∃ c, i.pick? tie (e - more) = some c) :
    Holds i (number (i.search tie (more + 1) e)) := by
  induction more generalizing e with
  | zero =>
    obtain ⟨c, hc⟩ := h
    rw [Nat.cast_zero, sub_zero] at hc
    rw [Interval.search, hc]
    exact holds_of_pick hc
  | succ more ih =>
    rw [Interval.search]
    cases hpick : i.pick? tie e with
    | some c => exact holds_of_pick hpick
    | none =>
      apply ih
      rwa [show e - 1 - (more : ℤ) = e - (more + 1 : ℕ) by push_cast; ring]

/-- Dropping zeros at the end does not change the number. -/
theorem dropZeros_number (fuel : ℕ) (d : Decimal) : number (d.dropZeros fuel) = number d := by
  induction fuel generalizing d with
  | zero => rfl
  | succ fuel ih =>
    rw [Decimal.dropZeros]
    split
    · next hzero =>
      rw [ih]
      have hdigits : (d.digits : ℚ) = 10 * (d.digits / 10 : ℕ) := by
        have : d.digits = 10 * (d.digits / 10) := by omega
        exact_mod_cast this
      rw [number, number, hdigits, zpow_add₀ (by norm_num), zpow_one]
      push_cast
      ring
    · rfl

end Search

section Shortest

variable {b : Binary}

/-- The interval is wider than one part in `10 ^ 16` of the number. -/
theorem width_of_interval (hcanonical : Canonical b.mantissa b.exponent) (hpos : 0 < b.mantissa) :
    magnitude b / 10 ^ 16 < units b.interval b.interval.high - units b.interval b.interval.low := by
  have hlt : (b.mantissa : ℚ) < 2 ^ 53 := by exact_mod_cast hcanonical.lt
  rw [units_interval, units_interval, ← sub_mul, magnitude, mul_div_right_comm]
  apply mul_lt_mul_of_pos_right _ (zpow_pos two_pos _)
  by_cases hnarrow : b.mantissa = impliedBit ∧ -1074 < b.exponent
  · have hlow : b.interval.low + 1 = 4 * b.mantissa := by
      simp only [Binary.interval, if_pos hnarrow]
      omega
    have hlow' : (b.interval.low : ℚ) + 1 = 4 * b.mantissa := by exact_mod_cast hlow
    have hhigh : (b.interval.high : ℚ) = 4 * b.mantissa + 2 := by simp [Binary.interval]
    have hm : (b.mantissa : ℚ) = 2 ^ 52 := by
      rw [hnarrow.1]
      norm_num [impliedBit]
    linarith
  · have hlow : b.interval.low + 2 = 4 * b.mantissa := by
      simp only [Binary.interval, if_neg hnarrow]
      omega
    have hlow' : (b.interval.low : ℚ) + 2 = 4 * b.mantissa := by exact_mod_cast hlow
    have hhigh : (b.interval.high : ℚ) = 4 * b.mantissa + 2 := by simp [Binary.interval]
    linarith

/-- The estimate of the leading digit is at most two too large. -/
theorem estimate_le {l : ℤ} (hlow : -1074 ≤ l) (hhigh : l ≤ 1024) : (10 : ℚ) ^ (l * 30103 / 100000 - 2) ≤ 2 ^ l := by
  apply ten_zpow_le
  omega

/-- **The leading digit** is not put too high. -/
theorem leading_le (hcanonical : Canonical b.mantissa b.exponent) (hfits : b.exponent ≤ 971) (hpos : 0 < b.mantissa) :
    (10 : ℚ) ^ (b.interval.leading - 1) ≤ magnitude b := by
  have hvalue : b.interval.value = 4 * b.mantissa := rfl
  have hexponent : b.interval.exponent = b.exponent - 2 := rfl
  have hlog : 2 ≤ b.interval.value.log2 ∧ b.interval.value.log2 < 55 := by
    have hlt := hcanonical.lt
    rw [Nat.le_log2 (by omega), Nat.log2_lt (by omega)]
    omega
  have hestimate :
      (10 : ℚ) ^ ((b.interval.value.log2 + b.interval.exponent : ℤ) * 30103 / 100000 - 2) ≤ magnitude b := by
    have hlow := hcanonical.low
    refine (estimate_le (by omega) (by omega)).trans ?_
    rw [← units_value, units, zpow_add₀ two_ne_zero, zpow_natCast]
    have : (2 : ℚ) ^ b.interval.value.log2 ≤ b.interval.value := by
      exact_mod_cast Nat.log2_self_le (show b.interval.value ≠ 0 by omega)
    gcongr
  have hnot : ∀ {k : ℤ}, ¬ b.interval.below k = true → (10 : ℚ) ^ k ≤ magnitude b := by
    intro k hbelow
    rwa [below_iff, not_lt, units_value] at hbelow
  unfold Interval.leading
  generalize (b.interval.value.log2 + b.interval.exponent : ℤ) * 30103 / 100000 = k at hestimate ⊢
  dsimp only
  split
  · rwa [sub_sub]
  · next hbelow =>
    split
    · exact hnot hbelow
    · next hbelow =>
      split
      · rw [add_sub_cancel_right]
        exact hnot hbelow
      · next hbelow =>
        rw [show k + 2 - 1 = k + 1 by ring]
        exact hnot hbelow

/-- **The shortest digits are rounded to the double that they stand for.** -/
theorem shortest_nearest (hcanonical : Canonical b.mantissa b.exponent) (hfits : b.exponent ≤ 971)
    (hpos : 0 < b.mantissa) (tie : Tie) : nearest (number (b.shortest tie)) = magnitude b := by
  apply nearest_of_holds hcanonical hpos
  unfold Binary.shortest
  dsimp only
  rw [dropZeros_number]
  apply search_holds
  apply exists_pick
  · simp only [Binary.interval]
    split <;> omega
  · simp only [Binary.interval]
    omega
  · refine lt_of_le_of_lt ?_ (width_of_interval hcanonical hpos)
    have hleading := leading_le hcanonical hfits hpos
    rw [zpow_sub₀ (by norm_num), zpow_natCast]
    exact div_le_div_of_nonneg_right hleading (by positivity)

end Shortest

end CurveScript.ShortestDigits
