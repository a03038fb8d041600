/-
What the operations on doubles compute.

Addition, subtraction, multiplication and division give the double nearest to the number that the same operation on
numbers gives, and an infinity if that is too large. All of them end in one step, which takes the beginning of a number
as a mantissa, with what is known of the rest, and rounds it (`roundWithAccuracy_rounds`). What is known are two bits:
whether half of a last place is reached and whether anything more follows. That is enough to round, and enough to know
the same two bits after a shift (`Describes.rounded`, `Describes.shiftRight`). The step must not begin below the last
place of the number (`le_place`), and no operation does.

Results:
- `roundWithAccuracy_rounds`, `normalize_rounds`, `divide_rounds`: rounding a mantissa.
- `add_computes`, `sub_computes`, `mul_computes`, `div_computes`, `add_top`, `div_top`, `top_div`: the four operations.
- `ofScientific_rounds`, `ofNat_computes`, `ofInt_value`, `toUInt64_toNat`: conversions from and to decimal and whole
  numbers.
- `Computes.value_eq`, `Computes.mono`: what follows for finite results, and for results of numbers in order.
-/
import CurveScript.Proofs.Doubles

namespace CurveScript.Operations

open Float.Model Float.Model.UnpackedFloat CurveScript.Rounding CurveScript.Doubles

/-! ## Mantissas with two more bits -/

/-- what a mantissa and its two bits say of a number: its whole part, whether a half is reached, whether more follows -/
def Describes : ExtendedMantissa → ℚ → Prop
  | ⟨m, false, false⟩, q => q = m
  | ⟨m, false, true⟩, q => m < q ∧ q < m + 1 / 2
  | ⟨m, true, false⟩, q => q = m + 1 / 2
  | ⟨m, true, true⟩, q => m + 1 / 2 < q ∧ q < m + 1

theorem Describes.bounds {em : ExtendedMantissa} {q : ℚ} (h : Describes em q) :
    (em.mantissa : ℚ) ≤ q ∧ q < em.mantissa + 1 := by
  obtain ⟨m, r, s⟩ := em
  cases r <;> cases s <;> simp only [Describes] at h ⊢ <;> constructor <;> linarith

/-- **The mantissa is rounded** to the nearest whole number. -/
theorem Describes.rounded {em : ExtendedMantissa} {q : ℚ} (h : Describes em q) :
    (em.roundedMantissa : ℤ) = nearestInt q := by
  have hfloor : ⌊q⌋ = em.mantissa := Int.floor_eq_iff.2 (by exact_mod_cast h.bounds)
  have hfract : Int.fract q = q - em.mantissa := by rw [Int.fract, hfloor, Int.cast_natCast]
  unfold nearestInt
  rw [hfract, hfloor]
  obtain ⟨m, r, s⟩ := em
  simp only [ExtendedMantissa.roundedMantissa, ExtendedMantissa.accuracy, Accuracy.roundToNearestEven]
  cases r <;> cases s <;> simp only [Describes] at h ⊢
  · rw [if_pos (by linarith)]
  · rw [if_pos (by linarith)]
  · rw [if_neg (by linarith), if_neg (by linarith)]
    push_cast
    rfl
  · rw [if_neg (by linarith), if_pos (by linarith)]
    push_cast
    rfl

/-- Shifting keeps what is known of the number. -/
theorem Describes.shiftRightOne {em : ExtendedMantissa} {q : ℚ} (h : Describes em q) :
    Describes em.shiftRightOne (q / 2) := by
  obtain ⟨m, r, s⟩ := em
  have hsplit : (m : ℚ) = 2 * (m / 2 : ℕ) + (m % 2 : ℕ) := by exact_mod_cast (Nat.div_add_mod m 2).symm
  rcases Nat.mod_two_eq_zero_or_one m with hbit | hbit <;> rw [hbit] at hsplit <;> cases r <;> cases s <;>
    simp only [Describes, ExtendedMantissa.shiftRightOne, hbit, bne_self_eq_false, Bool.or_false, Bool.or_true,
      Nat.cast_zero, Nat.cast_one, show (1 != 0) = true from rfl] at h hsplit ⊢ <;>
    (try constructor) <;> linarith

theorem Describes.shiftRight {em : ExtendedMantissa} {q : ℚ} (h : Describes em q) (k : ℕ) :
    Describes (em >>> k) (q / 2 ^ k) := by
  induction k with
  | zero => rwa [pow_zero, div_one]
  | succ k ih =>
    rw [pow_succ, ← div_div]
    exact ih.shiftRightOne

/-- the number of a mantissa with what is known of the rest -/
abbrev Accurate (m : ℕ) (acc : Accuracy) (q : ℚ) : Prop := Describes (.ofMantissaAndAccuracy m acc) q

theorem Accurate.bounds {m : ℕ} {acc : Accuracy} {q : ℚ} (h : Accurate m acc q) : (m : ℚ) ≤ q ∧ q < m + 1 := by
  have hbounds := Describes.bounds h
  cases acc with
  | exact => exact hbounds
  | inexact o => cases o <;> exact hbounds

theorem accurate_exact (m : ℕ) : Accurate m .exact m := rfl

/-- A quotient with its remainder. -/
theorem accurate_div (n : ℕ) {d : ℕ} (hd : 0 < d) : Accurate (n / d) (accuracyOfFraction (n % d) d) (n / d) := by
  have hpos : (0 : ℚ) < d := Nat.cast_pos.2 hd
  have hsplit : (n : ℚ) / d = (n / d : ℕ) + (n % d : ℕ) / d := by
    have hdivmod : (n : ℚ) = d * (n / d : ℕ) + (n % d : ℕ) := by exact_mod_cast (Nat.div_add_mod n d).symm
    field_simp
    exact hdivmod
  have hrest : ((n % d : ℕ) : ℚ) / d < 1 := (div_lt_one hpos).2 (Nat.cast_lt.2 (Nat.mod_lt n hd))
  rw [hsplit]
  generalize n % d = r at hrest ⊢
  unfold accuracyOfFraction
  split
  · next hzero =>
    rw [hzero, Nat.cast_zero, zero_div, add_zero]
    exact accurate_exact _
  · next hzero =>
    have hr : (0 : ℚ) < r := Nat.cast_pos.2 (Nat.pos_of_ne_zero hzero)
    rcases lt_trichotomy (2 * r) d with hlt | heq | hgt
    · rw [compare_lt_iff_lt.2 hlt]
      have hhalf : (r : ℚ) / d < 1 / 2 := by
        rw [div_lt_div_iff₀ hpos two_pos]
        have : (2 : ℚ) * r < d := by exact_mod_cast hlt
        linarith
      exact ⟨by linarith [div_pos hr hpos], by linarith⟩
    · rw [compare_eq_iff_eq.2 heq]
      have hhalf : (r : ℚ) / d = 1 / 2 := by
        rw [div_eq_div_iff hpos.ne' two_ne_zero]
        have : (2 : ℚ) * r = d := by exact_mod_cast heq
        linarith
      rw [hhalf]
      rfl
    · rw [compare_gt_iff_gt.2 hgt]
      have hhalf : 1 / 2 < (r : ℚ) / d := by
        rw [div_lt_div_iff₀ two_pos hpos]
        have : (d : ℚ) < 2 * r := by exact_mod_cast hgt
        linarith
      exact ⟨by linarith, by linarith⟩

/-! ## Rounding a mantissa -/

/-- The last place is at least the one from which the number has 53 bits. -/
theorem le_place {q : ℚ} {e : ℤ} (h : (2 : ℚ) ^ (e + 52) ≤ |q| ∨ e ≤ -1074) : e ≤ place q := by
  rcases h with hnormal | hlow
  · have hpos : 0 < |q| := (zpow_pos two_pos _).trans_le hnormal
    have hlog : e + 52 ≤ Int.log 2 |q| :=
      (Int.zpow_le_iff_le_log (b := 2) one_lt_two hpos).1 (by exact_mod_cast hnormal)
    exact le_max_of_le_left (by omega)
  · exact hlow.trans (le_max_right _ _)

theorem targetExponent_eq (t : ℤ) : Format.binary64.targetExponent t = max (t - 53) (-1074) := rfl

/-- The target of a mantissa that is the beginning of a number is the last place of the number. -/
theorem targetExponent_place {m : ℕ} {e : ℤ} {q : ℚ} (hq : 0 < q) (hle : (m : ℚ) * 2 ^ e ≤ q)
    (hlt : q < (m + 1) * 2 ^ e) (hplace : 0 < m ∨ e ≤ place q) :
    Format.binary64.targetExponent (totalExponent m e) = place q := by
  have hpos : (0 : ℚ) < 2 ^ e := zpow_pos two_pos e
  have hlog : ∀ k : ℤ, (2 : ℚ) ^ k ≤ q ↔ k ≤ Int.log 2 q := by
    intro k
    have := Int.zpow_le_iff_le_log (b := 2) one_lt_two hq (x := k)
    exact_mod_cast this
  unfold place at hplace ⊢
  rw [targetExponent_eq, totalExponent]
  rw [abs_of_pos hq] at hplace ⊢
  rcases Nat.eq_zero_or_pos m with rfl | hm
  · -- nothing of the number is in the mantissa: it is below the least place
    have hsmall : ¬ e ≤ Int.log 2 q := by
      rw [← hlog, not_le]
      simpa using hlt
    have hbelow := hplace.resolve_left (lt_irrefl 0)
    rw [Nat.log2_zero]
    omega
  · have hlow : (2 : ℚ) ^ ((m.log2 : ℤ) + e) ≤ q := by
      refine le_trans ?_ hle
      rw [zpow_add₀ two_ne_zero, zpow_natCast]
      have : (2 : ℚ) ^ m.log2 ≤ m := by exact_mod_cast Nat.log2_self_le hm.ne'
      gcongr
    have hhigh : ¬ (2 : ℚ) ^ ((m.log2 : ℤ) + e + 1) ≤ q := by
      rw [not_le]
      refine hlt.trans_le ?_
      have hsucc : (m : ℚ) + 1 ≤ 2 ^ ((m.log2 : ℤ) + 1) := by exact_mod_cast Nat.lt_log2_self (n := m)
      rw [add_right_comm, zpow_add₀ two_ne_zero]
      gcongr
    rw [hlog] at hlow hhigh
    omega

/-- the result of an operation before it is put into a bit pattern -/
structure Rounds (f : UnpackedFloat) (q : ℚ) : Prop where
  regular : Regular f
  finite : f.isFinite = true
  value : valueOf f = nearest q

theorem rounds_zero (s : Sign) : Rounds (.zero s) 0 := ⟨trivial, rfl, nearest_zero.symm⟩

theorem rounds_self {f : UnpackedFloat} (hregular : Regular f) (hfinite : f.isFinite = true) : Rounds f (valueOf f) :=
  ⟨hregular, hfinite, (nearest_eq_self (valueOf_onGrid hregular)).symm⟩

/-- a number with a sign -/
def signed (s : Sign) (q : ℚ) : ℚ := s.apply 1 * q

theorem signed_positive (q : ℚ) : signed .positive q = q := by
  rw [signed, Sign.apply, Int.cast_one, one_mul]

theorem signed_negative (q : ℚ) : signed .negative q = -q := by
  rw [signed, Sign.apply, Int.cast_neg, Int.cast_one, neg_one_mul]

theorem signed_neg (s : Sign) (q : ℚ) : signed (-s) q = -signed s q := by
  cases s with
  | positive => exact (signed_negative q).trans (congrArg _ (signed_positive q).symm)
  | negative => rw [signed_negative, neg_neg]; exact signed_positive q

theorem signed_mul (s t : Sign) (p q : ℚ) : signed (s * t) (p * q) = signed s p * signed t q := by
  have hproduct : (s * t).apply 1 = s.apply 1 * t.apply 1 := by cases s <;> cases t <;> rfl
  rw [signed, signed, signed, hproduct]
  push_cast
  ring

theorem signed_div (s t : Sign) (p q : ℚ) : signed (s / t) (p / q) = signed s p / signed t q := by
  have hquotient : (s / t).apply 1 = s.apply 1 * t.apply 1 := by cases s <;> cases t <;> rfl
  have hself : ((t.apply 1 : ℤ) : ℚ)⁻¹ = t.apply 1 := by cases t <;> norm_num [Sign.apply]
  rw [signed, signed, signed, hquotient, Int.cast_mul, div_eq_mul_inv, div_eq_mul_inv, mul_inv, hself]
  ring

theorem nearest_signed (s : Sign) (q : ℚ) : nearest (signed s q) = signed s (nearest q) := by
  cases s with
  | positive => rw [signed_positive, signed_positive]
  | negative => rw [signed_negative, signed_negative, nearest_neg]

theorem valueOf_finite {s : Sign} {m : ℕ} {e : ℤ} (hm : 0 < m) :
    valueOf (.finite s m e hm) = signed s (m * 2 ^ e) := by
  cases s with
  | positive => rw [valueOf_positive, signed_positive]
  | negative => rw [valueOf_negative, signed_negative]

/-- A mantissa of at most 53 bits is not shifted. -/
theorem shiftToTargetExponent_of_lt {n : ℕ} {t : ℤ} (hn : n < 2 ^ 53) (ht : -1074 ≤ t) :
    shiftToTargetExponent Format.binary64 n t .exact = (⟨n, false, false⟩, t) := by
  have hlog : n.log2 ≤ 52 := by
    rcases Nat.eq_zero_or_pos n with rfl | hpos
    · simp
    · exact Nat.le_of_lt_succ ((Nat.log2_lt hpos.ne').2 hn)
  have hshift : (max ((n.log2 : ℤ) + 1 + t - 53) (-1074) - t).toNat = 0 := by omega
  simp only [shiftToTargetExponent, shiftToExponent, targetExponent_eq, totalExponent, hshift]
  rw [Nat.cast_zero, add_zero]
  rfl

/-- A mantissa that was rounded up to 54 bits is shifted by one. -/
theorem shiftToTargetExponent_carry {t : ℤ} (ht : -1074 ≤ t) :
    shiftToTargetExponent Format.binary64 (2 ^ 53) t .exact = (⟨2 ^ 52, false, false⟩, t + 1) := by
  have hshift : (max (((2 ^ 53 : ℕ).log2 : ℤ) + 1 + t - 53) (-1074) - t).toNat = 1 := by
    rw [Nat.log2_two_pow]
    omega
  simp only [shiftToTargetExponent, shiftToExponent, targetExponent_eq, totalExponent, hshift]
  rfl

/-- a number from a mantissa and an exponent -/
def assemble (s : Sign) (em : ExtendedMantissa) (e : ℤ) : UnpackedFloat :=
  if h : em.mantissa = 0 then .zero s else .finite s em.mantissa e (Nat.pos_of_ne_zero h)

theorem assemble_regular (s : Sign) (em : ExtendedMantissa) {e : ℤ} (h : Canonical em.mantissa e) :
    Regular (assemble s em e) ∧ (assemble s em e).isFinite = true ∧
      valueOf (assemble s em e) = signed s (em.mantissa * 2 ^ e) := by
  unfold assemble
  split
  · next hzero =>
    rw [hzero, Nat.cast_zero, zero_mul, signed, mul_zero]
    exact ⟨trivial, rfl, rfl⟩
  · exact ⟨h, rfl, valueOf_finite _⟩

/-- **A mantissa with what is known of the rest is rounded to the nearest double.** -/
theorem roundWithAccuracy_rounds {s : Sign} {m : ℕ} {e : ℤ} {acc : Accuracy} {q : ℚ} (hq : 0 < q)
    (hacc : Accurate m acc (q / 2 ^ e)) (hplace : e ≤ place q) :
    Rounds (roundWithAccuracy Format.binary64 s m e acc) (signed s q) := by
  have hpos : (0 : ℚ) < 2 ^ e := zpow_pos two_pos e
  have hle : (m : ℚ) * 2 ^ e ≤ q := (le_div_iff₀ hpos).1 hacc.bounds.1
  have hlt : q < (m + 1) * 2 ^ e := (div_lt_iff₀ hpos).1 hacc.bounds.2
  have hlow : -1074 ≤ place q := le_max_right _ _
  obtain ⟨k, hk⟩ := Int.le.dest hplace
  have hshift : (place q - e).toNat = k := by omega
  have hdescribes : Describes (ExtendedMantissa.ofMantissaAndAccuracy m acc >>> k) (q / 2 ^ place q) := by
    rw [← hk, zpow_add₀ two_ne_zero, zpow_natCast, ← div_div]
    exact Describes.shiftRight hacc k
  obtain ⟨n, hn, hround⟩ : ∃ n : ℕ, (n : ℤ) = nearestInt (q / 2 ^ place q) ∧
      roundWithAccuracy Format.binary64 s m e acc =
        assemble s (shiftToTargetExponent Format.binary64 n (place q) .exact).1
          (shiftToTargetExponent Format.binary64 n (place q) .exact).2 := by
    refine ⟨_, hdescribes.rounded, ?_⟩
    rw [roundWithAccuracy]
    simp only [shiftToTargetExponent, shiftToExponent, targetExponent_place hq hle hlt (Or.inr hplace), hshift, hk,
      assemble]
    rfl
  have hvalue : nearest (signed s q) = signed s (n * 2 ^ place q) := by
    rw [nearest_signed, nearest, ← hn, Int.cast_natCast]
  have hbound : n ≤ 2 ^ 53 := by
    have := mantissa_le (q := q)
    omega
  have hfull : 2 ^ 52 ≤ n ∨ place q = -1074 := by
    rcases hlow.lt_or_eq with hmore | hleast
    · have := le_mantissa hq hmore
      exact Or.inl (by omega)
    · exact Or.inr hleast.symm
  rw [hround]
  rcases Nat.lt_or_eq_of_le hbound with hfits | rfl
  · rw [shiftToTargetExponent_of_lt hfits hlow]
    obtain ⟨hregular, hfinite, hassembled⟩ := assemble_regular s ⟨n, false, false⟩ ⟨hfits, hlow, hfull⟩
    exact ⟨hregular, hfinite, hassembled.trans hvalue.symm⟩
  · rw [shiftToTargetExponent_carry hlow]
    obtain ⟨hregular, hfinite, hassembled⟩ := assemble_regular s ⟨2 ^ 52, false, false⟩
      (e := place q + 1) ⟨by norm_num, by omega, Or.inl le_rfl⟩
    refine ⟨hregular, hfinite, hassembled.trans ?_⟩
    rw [hvalue, zpow_add_one₀ two_ne_zero]
    congr 1
    push_cast
    ring

/-- An exact mantissa. -/
theorem roundWithAccuracy_exact {s : Sign} {m : ℕ} {e : ℤ} (hm : 0 < m) (hplace : e ≤ place (m * 2 ^ e)) :
    Rounds (roundWithAccuracy Format.binary64 s m e .exact) (signed s (m * 2 ^ e)) := by
  refine roundWithAccuracy_rounds (scaled_pos hm e) ?_ hplace
  rw [mul_div_cancel_right₀ _ (zpow_pos two_pos e).ne']
  exact accurate_exact m

/-! ## Operations on unpacked doubles -/

theorem scaled_shiftLeft (m : ℕ) (e : ℤ) (k : ℕ) : ((m <<< k : ℕ) : ℚ) * 2 ^ (e - k) = m * 2 ^ e := by
  rw [Nat.shiftLeft_eq, zpow_sub₀ two_ne_zero, zpow_natCast]
  push_cast
  field_simp

theorem shiftLeft_pos {m : ℕ} (hm : 0 < m) (k : ℕ) : 0 < m <<< k := by
  rw [Nat.shiftLeft_eq]
  positivity

theorem round_rounds {s : Sign} {m : ℕ} {e : ℤ} (hm : 0 < m) :
    Rounds (UnpackedFloat.round Format.binary64 s m e) (signed s (m * 2 ^ e)) := by
  have hpos : (0 : ℚ) < 2 ^ e := zpow_pos two_pos e
  have htarget : Format.binary64.targetExponent (totalExponent m e) = place (m * 2 ^ e) :=
    targetExponent_place (scaled_pos hm e) le_rfl (by linarith) (Or.inl hm)
  unfold UnpackedFloat.round decreaseExponent
  simp only [htarget]
  generalize hk : (e - place (m * 2 ^ e)).toNat = k
  have hplace : e - k ≤ place (m * 2 ^ e) := by omega
  rw [← scaled_shiftLeft m e k] at hplace ⊢
  exact roundWithAccuracy_exact (shiftLeft_pos hm k) hplace

theorem normalize_rounds (n e : ℤ) (s : Sign) :
    Rounds (UnpackedFloat.normalize Format.binary64 n e s) (n * 2 ^ e) := by
  unfold UnpackedFloat.normalize
  rcases lt_trichotomy n 0 with hneg | rfl | hpos
  · rw [compare_lt_iff_lt.2 hneg]
    have hcast : (n : ℚ) = -((-n).toNat : ℕ) := by
      rw [← Int.cast_natCast, Int.toNat_of_nonneg (by omega), Int.cast_neg, neg_neg]
    have h := round_rounds (s := .negative) (m := (-n).toNat) (e := e) (by omega)
    rwa [signed_negative, ← neg_mul, ← hcast] at h
  · rw [Int.cast_zero, zero_mul]
    exact rounds_zero s
  · rw [compare_gt_iff_gt.2 hpos]
    have hcast : (n : ℚ) = (n.toNat : ℕ) := by rw [← Int.cast_natCast, Int.toNat_of_nonneg hpos.le]
    have h := round_rounds (s := .positive) (m := n.toNat) (e := e) (by omega)
    rwa [signed_positive, ← hcast] at h

/-- A product of two mantissas has no bit below the last place of the number. -/
theorem mul_le_place {m m' : ℕ} {e e' : ℤ} (h : Canonical m e) (h' : Canonical m' e') (hm : 0 < m) (hm' : 0 < m') :
    e + e' ≤ place ((m * m' : ℕ) * 2 ^ (e + e')) := by
  refine le_place ?_
  rw [abs_of_pos (scaled_pos (Nat.mul_pos hm hm') _), zpow_add₀ two_ne_zero (e + e'), mul_comm]
  have hpos : (0 : ℚ) < 2 ^ (e + e') := zpow_pos two_pos _
  have hproduct : 2 ^ 52 ≤ m ∨ 2 ^ 52 ≤ m' → (2 : ℚ) ^ (52 : ℤ) ≤ (m * m' : ℕ) := by
    rintro (hfull | hfull)
    · exact_mod_cast hfull.trans (Nat.le_mul_of_pos_right m hm')
    · exact_mod_cast hfull.trans (Nat.le_mul_of_pos_left m' hm)
  rcases h.normal with hfull | rfl
  · exact Or.inl (mul_le_mul_of_nonneg_right (hproduct (Or.inl hfull)) hpos.le)
  · rcases h'.normal with hfull | rfl
    · exact Or.inl (mul_le_mul_of_nonneg_right (hproduct (Or.inr hfull)) hpos.le)
    · exact Or.inr (by norm_num)

/-- A number at a smaller exponent. -/
theorem decreased {s : Sign} {m : ℕ} {e f : ℤ} (hm : 0 < m) (h : f ≤ e) :
    ((s.apply (decreaseExponent m e f).1 : ℤ) : ℚ) * 2 ^ f = valueOf (.finite s m e hm) := by
  have hshift : e - (e - f).toNat = f := by omega
  have hscaled := scaled_shiftLeft m e (e - f).toNat
  rw [hshift] at hscaled
  cases s with
  | positive => exact hscaled
  | negative =>
    rw [valueOf_negative, ← hscaled, Sign.apply, Int.cast_neg, neg_mul]
    rfl

/-- A quotient has no bit of its whole part below its last place. -/
theorem quotient_le_place {m m' : ℕ} (e e' : ℤ) (hm : 0 < m) (hm' : 0 < m') :
    Format.binary64.targetExponent (totalExponent m e - totalExponent m' e') ≤ place (m * 2 ^ e / (m' * 2 ^ e')) := by
  have hpos' := scaled_pos hm' e'
  rw [targetExponent_eq, totalExponent, totalExponent]
  refine max_le (le_place (Or.inl ?_)) (le_max_right _ _)
  have hlow : (2 : ℚ) ^ ((m.log2 : ℤ) + e) ≤ m * 2 ^ e := by
    have hle : (2 : ℚ) ^ (m.log2 : ℤ) ≤ m := by exact_mod_cast Nat.log2_self_le hm.ne'
    rw [zpow_add₀ two_ne_zero]
    gcongr
  have hhigh : (m' : ℚ) * 2 ^ e' ≤ 2 ^ ((m'.log2 : ℤ) + 1 + e') := by
    have hle : (m' : ℚ) ≤ 2 ^ ((m'.log2 : ℤ) + 1) := by exact_mod_cast (Nat.lt_log2_self (n := m')).le
    rw [zpow_add₀ two_ne_zero]
    gcongr
  rw [abs_of_pos (div_pos (scaled_pos hm e) hpos'), le_div_iff₀ hpos']
  calc (2 : ℚ) ^ ((m.log2 : ℤ) + 1 + e - (m'.log2 + 1 + e') - 53 + 52) * (m' * 2 ^ e')
      ≤ 2 ^ ((m.log2 : ℤ) + 1 + e - (m'.log2 + 1 + e') - 53 + 52) * 2 ^ ((m'.log2 : ℤ) + 1 + e') := by gcongr
    _ = 2 ^ ((m.log2 : ℤ) + e) := by
      rw [← zpow_add₀ two_ne_zero]
      congr 1
      omega
    _ ≤ m * 2 ^ e := hlow

/-- Whole numbers are divided with remainder, the dividend long enough for the quotient to have all its bits. -/
theorem divide_rounds (s : Sign) {m m' : ℕ} (e e' : ℤ) (hm : 0 < m) (hm' : 0 < m') :
    Rounds (roundWithAccuracy Format.binary64 s (divCore Format.binary64 m e m' e').1
      (divCore Format.binary64 m e m' e').2.1 (divCore Format.binary64 m e m' e').2.2)
      (signed s (m * 2 ^ e / (m' * 2 ^ e'))) := by
  have hle : min (e - e') (Format.binary64.targetExponent (totalExponent m e - totalExponent m' e')) ≤
      place (m * 2 ^ e / (m' * 2 ^ e')) := (min_le_right _ _).trans (quotient_le_place e e' hm hm')
  unfold divCore
  dsimp only
  generalize ht : min (e - e') (Format.binary64.targetExponent (totalExponent m e - totalExponent m' e')) = t at hle ⊢
  refine roundWithAccuracy_rounds (div_pos (scaled_pos hm e) (scaled_pos hm' e')) ?_ hle
  have hscaled : (m * 2 ^ e / (m' * 2 ^ e') / 2 ^ t : ℚ) = ((m <<< (e - e' - t).toNat : ℕ) : ℚ) / m' := by
    have hshift : e - e' - (e - e' - t).toNat = t := by omega
    have hpos : (0 : ℚ) < 2 ^ t := zpow_pos two_pos t
    have hdiff : (2 : ℚ) ^ e = 2 ^ (e - e') * 2 ^ e' := by rw [← zpow_add₀ two_ne_zero, sub_add_cancel]
    have hpos' : (0 : ℚ) < 2 ^ e' := zpow_pos two_pos e'
    have hm'pos : (0 : ℚ) < m' := Nat.cast_pos.2 hm'
    have hleft := scaled_shiftLeft m (e - e') (e - e' - t).toNat
    rw [hshift] at hleft
    rw [hdiff, ← mul_assoc, ← hleft]
    field_simp
  rw [hscaled]
  exact accurate_div _ hm'

section Operations

variable {f g : UnpackedFloat} (hf : Regular f) (hg : Regular g) (hffinite : f.isFinite = true)
  (hgfinite : g.isFinite = true)

include hf hg hffinite hgfinite

theorem add_rounds : Rounds (UnpackedFloat.add Format.binary64 f g) (valueOf f + valueOf g) := by
  rcases finite_cases hffinite with ⟨s, rfl⟩ | ⟨s, m, e, hm, rfl⟩
  · change Rounds _ (0 + _)
    rw [zero_add]
    rcases finite_cases hgfinite with ⟨t, rfl⟩ | ⟨t, m', e', hm', rfl⟩
    · cases s <;> cases t <;> exact rounds_zero _
    · exact rounds_self hg rfl
  · rcases finite_cases hgfinite with ⟨t, rfl⟩ | ⟨t, m', e', hm', rfl⟩
    · change Rounds _ (_ + 0)
      rw [add_zero]
      exact rounds_self hf rfl
    · have hsum := normalize_rounds (s.apply (decreaseExponent m e (min e e')).1 +
        t.apply (decreaseExponent m' e' (min e e')).1) (min e e') .positive
      rwa [Int.cast_add, add_mul, decreased hm (min_le_left _ _), decreased hm' (min_le_right _ _)] at hsum

theorem sub_rounds : Rounds (UnpackedFloat.sub Format.binary64 f g) (valueOf f - valueOf g) := by
  rcases finite_cases hffinite with ⟨s, rfl⟩ | ⟨s, m, e, hm, rfl⟩
  · change Rounds _ (0 - _)
    rw [zero_sub]
    rcases finite_cases hgfinite with ⟨t, rfl⟩ | ⟨t, m', e', hm', rfl⟩
    · change Rounds _ (-0)
      rw [neg_zero]
      cases s <;> cases t <;> exact rounds_zero _
    · have hneg : Regular (.finite (-t) m' e' hm') := hg
      have hself := rounds_self hneg rfl
      rwa [valueOf_finite, signed_neg, ← valueOf_finite hm'] at hself
  · rcases finite_cases hgfinite with ⟨t, rfl⟩ | ⟨t, m', e', hm', rfl⟩
    · change Rounds _ (_ - 0)
      rw [sub_zero]
      exact rounds_self hf rfl
    · have hdifference := normalize_rounds (s.apply (decreaseExponent m e (min e e')).1 -
        t.apply (decreaseExponent m' e' (min e e')).1) (min e e') .positive
      rwa [Int.cast_sub, sub_mul, decreased hm (min_le_left _ _), decreased hm' (min_le_right _ _)] at hdifference

theorem mul_rounds : Rounds (UnpackedFloat.mul Format.binary64 f g) (valueOf f * valueOf g) := by
  rcases finite_cases hffinite with ⟨s, rfl⟩ | ⟨s, m, e, hm, rfl⟩
  · change Rounds _ (0 * _)
    rw [zero_mul]
    rcases finite_cases hgfinite with ⟨t, rfl⟩ | ⟨t, m', e', hm', rfl⟩ <;> exact rounds_zero _
  · rcases finite_cases hgfinite with ⟨t, rfl⟩ | ⟨t, m', e', hm', rfl⟩
    · change Rounds _ (_ * 0)
      rw [mul_zero]
      exact rounds_zero _
    · have hproduct := roundWithAccuracy_exact (s := s * t) (Nat.mul_pos hm hm') (mul_le_place hf hg hm hm')
      have hscaled : ((m * m' : ℕ) : ℚ) * 2 ^ (e + e') = (m * 2 ^ e) * (m' * 2 ^ e') := by
        rw [zpow_add₀ two_ne_zero]
        push_cast
        ring
      rwa [hscaled, signed_mul, ← valueOf_finite hm, ← valueOf_finite hm'] at hproduct

omit hf hg in
theorem div_rounds (hzero : valueOf g ≠ 0) :
    Rounds (UnpackedFloat.div Format.binary64 f g) (valueOf f / valueOf g) := by
  rcases finite_cases hgfinite with ⟨t, rfl⟩ | ⟨t, m', e', hm', rfl⟩
  · exact absurd rfl hzero
  · rcases finite_cases hffinite with ⟨s, rfl⟩ | ⟨s, m, e, hm, rfl⟩
    · change Rounds _ (0 / _)
      rw [zero_div]
      exact rounds_zero _
    · have hquotient := divide_rounds (s / t) e e' hm hm'
      rwa [signed_div, ← valueOf_finite hm, ← valueOf_finite hm'] at hquotient

end Operations

/-! ## Operations on doubles -/

/-- The double is the one nearest to a number, or the infinity beyond the largest double. -/
structure Computes (x : Float) (q : ℚ) : Prop where
  number : x.isNaN = false
  level : level x = saturate (nearest q)

theorem Rounds.computes {f : UnpackedFloat} {q : ℚ} {x : Float} (h : Rounds f q) (hx : x.toModel = Float.Model.pack f) :
    Computes x q := by
  have hunpack : x.toModel.unpack = clip f := by rw [hx, unpack_pack h.regular]
  constructor
  · change x.toModel.unpack.isNaN = false
    rw [hunpack]
    rcases finite_cases h.finite with ⟨s, rfl⟩ | ⟨s, m, e, hm, rfl⟩
    · rfl
    · rw [clip]
      split <;> rfl
  · change levelOf x.toModel.unpack = _
    rw [hunpack, levelOf_clip h.regular h.finite, h.value]

section Finite

variable {x y : Float} (hx : x.isFinite = true) (hy : y.isFinite = true)

include hx hy

/-- **Sums, differences, products and quotients** of finite doubles are rounded. -/
theorem add_computes : Computes (x + y) (value x + value y) :=
  (add_rounds (regular_unpack x) (regular_unpack y) hx hy).computes rfl

theorem sub_computes : Computes (x - y) (value x - value y) :=
  (sub_rounds (regular_unpack x) (regular_unpack y) hx hy).computes rfl

theorem mul_computes : Computes (x * y) (value x * value y) :=
  (mul_rounds (regular_unpack x) (regular_unpack y) hx hy).computes rfl

theorem div_computes (hzero : value y ≠ 0) : Computes (x / y) (value x / value y) :=
  (div_rounds hx hy hzero).computes rfl

end Finite

namespace Computes

variable {x y : Float} {p q : ℚ}

theorem finite (h : Computes x q) (hlt : |nearest q| < ceiling) : x.isFinite = true ∧ value x = nearest q :=
  isFinite_of_level h.number (h.level.trans (saturate_of_lt hlt))

theorem value_eq (h : Computes x q) (hx : x.isFinite = true) : value x = nearest q := by
  have hlevel := h.level
  rw [level_of_isFinite hx, saturate] at hlevel
  split at hlevel
  · cases hlevel
  · split at hlevel
    · cases hlevel
    · exact WithTop.coe_injective (WithBot.coe_injective hlevel)

theorem finite_of_nonneg (h : Computes x q) (hq : 0 ≤ q) (hlt : nearest q < ceiling) :
    x.isFinite = true ∧ value x = nearest q := h.finite (by rwa [abs_of_nonneg (nearest_nonneg hq)])

theorem top_of_le (h : Computes x q) (hge : ceiling ≤ nearest q) : Doubles.level x = ⊤ := by
  rw [h.level, saturate, if_pos hge]

/-- A result that is not negative is finite or infinity. -/
theorem finite_or_top (h : Computes x q) (hq : 0 ≤ q) :
    (x.isFinite = true ∧ value x = nearest q) ∨ Doubles.level x = ⊤ :=
  (lt_or_ge (nearest q) ceiling).imp (h.finite_of_nonneg hq) h.top_of_le

theorem mono (hx : Computes x p) (hy : Computes y q) (h : p ≤ q) : Doubles.level x ≤ Doubles.level y := by
  rw [hx.level, hy.level]
  exact saturate_mono (nearest_mono h)

end Computes

/-! ## Infinities -/

theorem unpack_of_top {x : Float} (h : level x = ⊤) : x.toModel.unpack = .infinity .positive := by
  unfold level at h
  cases hx : x.toModel.unpack with
  | infinity s =>
    cases s with
    | positive => rfl
    | negative => rw [hx] at h; cases h
  | notANumber => rw [hx] at h; cases h
  | zero s => rw [hx] at h; cases h
  | finite s m e hm => rw [hx] at h; cases h

theorem top_of_unpack {x : Float} (h : x.toModel.unpack = .infinity .positive) : x.isNaN = false ∧ level x = ⊤ := by
  constructor
  · change x.toModel.unpack.isNaN = false
    rw [h]
    rfl
  · rw [level, h]
    rfl

/-- A finite number and infinity. -/
theorem add_top {x y : Float} (hx : x.isFinite = true) (hy : level y = ⊤) :
    (x + y).isNaN = false ∧ level (x + y) = ⊤ := by
  refine top_of_unpack ?_
  change (Float.Model.pack (UnpackedFloat.add Format.binary64 x.toModel.unpack y.toModel.unpack)).unpack = _
  rw [unpack_of_top hy]
  rcases finite_cases hx with ⟨s, hs⟩ | ⟨s, m, e, hm, hs⟩ <;> rw [hs] <;>
    exact unpack_pack (f := .infinity .positive) trivial

/-- A number divided by infinity. -/
theorem div_top {x y : Float} (hx : x.isFinite = true) (hy : level y = ⊤) : value (x / y) = 0 := by
  have hzero : ∃ s, (x / y).toModel.unpack = .zero s := by
    have hkept : ∀ t, (Float.Model.pack (.zero t)).unpack = .zero t := fun t => unpack_pack (f := .zero t) trivial
    change ∃ s, (Float.Model.pack (UnpackedFloat.div Format.binary64 x.toModel.unpack y.toModel.unpack)).unpack = _
    rw [unpack_of_top hy]
    rcases finite_cases hx with ⟨s, hs⟩ | ⟨s, m, e, hm, hs⟩ <;> rw [hs] <;> exact ⟨_, hkept _⟩
  obtain ⟨s, hs⟩ := hzero
  rw [value, hs]
  rfl

/-- Infinity divided by a positive number. -/
theorem top_div {x y : Float} (hx : level x = ⊤) (hy : y.isFinite = true) (hpos : 0 < value y) :
    (x / y).isNaN = false ∧ level (x / y) = ⊤ := by
  refine top_of_unpack ?_
  change (Float.Model.pack (UnpackedFloat.div Format.binary64 x.toModel.unpack y.toModel.unpack)).unpack = _
  unfold value at hpos
  rw [unpack_of_top hx]
  rcases finite_cases hy with ⟨s, hs⟩ | ⟨s, m, e, hm, hs⟩
  · rw [hs] at hpos
    exact absurd hpos (lt_irrefl 0)
  · rw [hs] at hpos ⊢
    cases s with
    | positive => exact unpack_pack (f := .infinity .positive) trivial
    | negative =>
      rw [valueOf_negative] at hpos
      exact absurd (scaled_pos hm e) (by linarith)

/-! ## Conversions -/

theorem toUInt64_toFloat_computes (n : UInt64) : Computes n.toFloat n.toNat := by
  have h := normalize_rounds n.toNat 0 .positive
  rw [zpow_zero, mul_one, Int.cast_natCast] at h
  exact h.computes rfl

theorem Computes.finite_natCast {x : Float} {n : ℕ} (h : Computes x n) (hn : n ≤ 2 ^ 64) :
    x.isFinite = true ∧ value x = nearest n := by
  have hbound : (n : ℚ) ≤ 2 ^ (64 : ℤ) := by exact_mod_cast hn
  exact h.finite_of_nonneg (Nat.cast_nonneg n) (lt_ceiling (nearest_le (onGrid_zpow (by norm_num)) hbound))

theorem value_one :
    (Float.ofBits 0x3FF0000000000000).isFinite = true ∧ value (Float.ofBits 0x3FF0000000000000) = 1 := by
  obtain ⟨hfinite, hvalue⟩ :=
    value_of_unpack (x := Float.ofBits 0x3FF0000000000000) (m := 4503599627370496) (e := -52) (by decide) rfl
  refine ⟨hfinite, hvalue.trans ?_⟩
  norm_num

/-- **Decimal numbers** whose powers of ten are not cut short are rounded. -/
theorem ofScientific_rounds {n : ℕ} {e : ℤ} (hn : 0 < n) (hhigh : e ≤ 2048) (hlow : -2048 ≤ e + n.log2) :
    Rounds (UnpackedFloat.ofScientific Format.binary64 n e) (n * 10 ^ e) := by
  have hbound : (2 ^ Format.binary64.exponentBits : ℤ) = 2048 := rfl
  have hlarge : ¬ e > 2 ^ Format.binary64.exponentBits := by omega
  have hsmall : ¬ e < -((2 ^ Format.binary64.exponentBits : ℤ) + n.log2) := by omega
  unfold UnpackedFloat.ofScientific
  rw [dif_neg hn.ne', if_neg hlarge, if_neg hsmall]
  split
  · next hnonneg =>
    obtain ⟨k, rfl⟩ := Int.eq_ofNat_of_zero_le hnonneg
    rw [zpow_natCast]
    have hscaled : ((n <<< 53 * 10 ^ k : ℕ) : ℚ) * 2 ^ (-53 + 0 : ℤ) = n * 10 ^ k := by
      have hshift := scaled_shiftLeft n 0 53
      have hexponents : (-53 + 0 : ℤ) = 0 - (53 : ℕ) := by norm_num
      rw [zpow_zero, mul_one] at hshift
      rw [hexponents, Nat.cast_mul, mul_right_comm, hshift]
      norm_num
    have hwhole : (1 : ℚ) ≤ n * 10 ^ k := by
      have : 1 ≤ n * 10 ^ k := Nat.mul_pos hn (by positivity)
      exact_mod_cast this
    have hplace : (-53 + 0 : ℤ) ≤ place ((n <<< 53 * 10 ^ k : ℕ) * 2 ^ (-53 + 0 : ℤ)) := by
      refine le_place (Or.inl ?_)
      rw [hscaled, abs_of_nonneg (by linarith)]
      exact le_trans (by norm_num) hwhole
    have h := roundWithAccuracy_exact (s := .positive)
      (Nat.mul_pos (shiftLeft_pos hn 53) (Nat.pow_pos (by norm_num))) hplace
    rwa [signed_positive, hscaled] at h
  · next hneg =>
    obtain ⟨k, hk⟩ := Int.eq_ofNat_of_zero_le (show 0 ≤ -e by omega)
    obtain rfl : e = -(k : ℤ) := by omega
    have h := divide_rounds .positive 0 0 hn (show 0 < 10 ^ (-(-(k : ℤ))).toNat from Nat.pow_pos (by norm_num))
    have hscaled : (n * 2 ^ (0 : ℤ) / ((10 ^ (-(-(k : ℤ))).toNat : ℕ) * 2 ^ (0 : ℤ)) : ℚ) = n * 10 ^ (-(k : ℤ)) := by
      rw [neg_neg, Int.toNat_natCast, zpow_zero, mul_one, mul_one, zpow_neg, zpow_natCast, ← div_eq_mul_inv]
      norm_num
    rwa [signed_positive, hscaled] at h

/-- Whole numbers of at most 53 bits are doubles. -/
theorem toFloat_value {n : ℕ} (hn : n < 2 ^ 53) :
    n.toUInt64.toFloat.isFinite = true ∧ value n.toUInt64.toFloat = n := by
  have hmodulo : n.toUInt64.toNat = n := Nat.mod_eq_of_lt (by omega)
  have hnum := toUInt64_toFloat_computes n.toUInt64
  rw [hmodulo] at hnum
  have hvalue := hnum.finite_natCast (hn.le.trans (by norm_num))
  rwa [nearest_eq_self (onGrid_natCast hn.le)] at hvalue

/-- **Whole numbers** are rounded. -/
theorem ofNat_computes (n : ℕ) : Computes (Float.ofNat n) n := by
  by_cases hn : n < 2 ^ 53
  · obtain ⟨hfinite, hvalue⟩ := toFloat_value hn
    have hproduct := mul_computes hfinite value_one.1
    rw [hvalue, value_one.2, mul_one] at hproduct
    have heq : Float.ofNat n = n.toUInt64.toFloat * Float.ofBits 0x3FF0000000000000 := by
      change Float.ofScientific n false 0 = _
      unfold Float.ofScientific
      rw [dif_pos ⟨hn, by norm_num⟩]
      rfl
    rwa [heq]
  · have heq : (Float.ofNat n).toModel = Float.Model.pack (UnpackedFloat.ofScientific Format.binary64 n 0) := by
      change (Float.ofScientific n false 0).toModel = _
      unfold Float.ofScientific
      rw [dif_neg fun h => hn h.1]
      rfl
    have hrounds := ofScientific_rounds (n := n) (e := 0) (by omega) (by norm_num) (by omega)
    rw [zpow_zero, mul_one] at hrounds
    exact hrounds.computes heq

theorem ofNat_value {n : ℕ} (hn : n ≤ 2 ^ 53) : (Float.ofNat n).isFinite = true ∧ value (Float.ofNat n) = n := by
  have h := (ofNat_computes n).finite_natCast (hn.trans (by norm_num))
  rwa [nearest_eq_self (onGrid_natCast hn)] at h

theorem valueOf_neg (f : UnpackedFloat) : valueOf f.neg = -valueOf f := by
  cases f with
  | finite s m e hm =>
    change valueOf (.finite (-s) m e hm) = _
    rw [valueOf_finite, valueOf_finite, signed_neg]
  | _ => exact neg_zero.symm

theorem neg_value {x : Float} (hx : x.isFinite = true) : (-x).isFinite = true ∧ value (-x) = -value x := by
  have hregular : Regular x.toModel.unpack.neg := by
    have h := regular_unpack x
    cases hu : x.toModel.unpack with
    | finite s m e hm => rw [hu] at h; exact h
    | _ => trivial
  have hfinite : x.toModel.unpack.neg.isFinite = true := by
    rcases finite_cases hx with ⟨s, hs⟩ | ⟨s, m, e, hm, hs⟩ <;> rw [hs] <;> rfl
  have hcomputes : Computes (-x) (-value x) := by
    have h := (rounds_self hregular hfinite).computes (x := -x) rfl
    rwa [valueOf_neg] at h
  have hself : nearest (-value x) = -value x := nearest_eq_self (value_onGrid x).neg
  have hsmall : |nearest (-value x)| < ceiling := by
    rw [hself, abs_neg]
    exact abs_value_lt x
  rw [← hself]
  exact hcomputes.finite hsmall

/-- **Whole numbers with a sign** are rounded. -/
theorem ofInt_value {n : ℤ} (hn : |n| ≤ 2 ^ 64) :
    (Float.ofInt n).isFinite = true ∧ value (Float.ofInt n) = nearest n := by
  cases n with
  | ofNat n => exact (ofNat_computes n).finite_natCast (by rw [Int.ofNat_eq_natCast, abs_of_nonneg] at hn <;> omega)
  | negSucc n =>
    obtain ⟨hfinite, hvalue⟩ := (ofNat_computes n.succ).finite_natCast (by
      rw [abs_of_neg (Int.negSucc_lt_zero n)] at hn
      omega)
    obtain ⟨hfinite', hvalue'⟩ := neg_value hfinite
    refine ⟨hfinite', ?_⟩
    change value (-(Float.ofNat n.succ)) = _
    rw [hvalue', hvalue, ← nearest_neg]
    congr 1

theorem roundToInt_eq {m : ℕ} {e : ℤ} : roundToInt .positive m e = ⌊(m * 2 ^ e : ℚ)⌋₊ := by
  unfold roundToInt decreaseExponent shiftToExponent
  simp only [sub_zero, zero_sub, Sign.apply]
  generalize hk : e.toNat = k
  generalize hj : (-(e - (k : ℤ))).toNat = j
  have hdescribes := Describes.shiftRight (accurate_exact (m <<< k)) j
  have hvalue : ((m <<< k : ℕ) : ℚ) / 2 ^ j = m * 2 ^ e := by
    have hexponent : e - (k : ℤ) = -(j : ℤ) := by omega
    rw [← scaled_shiftLeft m e k, hexponent, zpow_neg, zpow_natCast, div_eq_mul_inv]
  rw [hvalue] at hdescribes
  exact congrArg _ ((Nat.floor_eq_iff (by positivity)).2 hdescribes.bounds).symm

theorem toNat_ofNatClamp {n : ℕ} (hn : n < 2 ^ 64) : (UInt64.ofNatClamp n).toNat = n := by
  unfold UInt64.ofNatClamp
  rw [dif_pos (show n < UInt64.size from hn)]
  rfl

/-- **Whole parts** are taken of doubles in the range of the integers without a sign. -/
theorem toUInt64_toNat {x : Float} (hx : x.isFinite = true) (hpos : 0 ≤ value x) (hlt : value x < 2 ^ 64) :
    x.toUInt64.toNat = ⌊value x⌋₊ := by
  change (UInt64.ofNatClamp (toInt 0 (UInt64.size - 1) x.toModel.unpack).toNat).toNat = _
  unfold value at hpos hlt ⊢
  rcases finite_cases hx with ⟨s, hs⟩ | ⟨s, m, e, hm, hs⟩
  · rw [hs]
    exact Nat.floor_zero.symm
  · rw [hs] at hpos hlt ⊢
    cases s with
    | negative =>
      rw [valueOf_negative] at hpos
      exact absurd (scaled_pos hm e) (by linarith)
    | positive =>
      rw [valueOf_positive] at hpos hlt ⊢
      change (UInt64.ofNatClamp (roundToInt .positive m e).toNat).toNat = _
      rw [roundToInt_eq, Int.toNat_natCast]
      exact toNat_ofNatClamp ((Nat.floor_lt hpos).2 (by exact_mod_cast hlt))

end CurveScript.Operations
