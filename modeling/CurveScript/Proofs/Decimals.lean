/-
Reading decimal numbers.

A decimal number is read as the double nearest to it. Numbers far outside of the range are zero or infinite whatever
their digits are, and no other power of ten is cut short. Short numbers take one multiplication or division by a power
of ten that a double holds exactly, all others a product or quotient of whole numbers; both are rounded once.

Results:
- `ten_zpow_le`: powers of ten below powers of two.
- `powersOfTen_value`, `ofScientific_computes`: the two ways of reading.
- `digits_bounds`: how many digits a number has.
- `computes_large`, `computes_small`: numbers far outside of the range.
- `ofDecimal_computes`: every decimal number is read as the nearest double.
-/
import CurveScript.Double.Reader
import CurveScript.Proofs.Patterns

namespace CurveScript.Decimals

open Float.Model Float.Model.UnpackedFloat CurveScript.Double CurveScript.Rounding CurveScript.Doubles
  CurveScript.Operations CurveScript.Patterns

/-! ## Powers of ten and of two -/

theorem zpow_le_of_pow_le {a b : ℚ} (ha : 0 < a) (hb : 0 < b) {n l : ℤ} {k : ℕ} (hk : k ≠ 0)
    (h : (a ^ k) ^ n ≤ (b ^ l) ^ k) : a ^ n ≤ b ^ l := by
  rw [← pow_le_pow_iff_left₀ (zpow_pos ha n).le (zpow_pos hb l).le hk, ← zpow_natCast (a ^ n), ← zpow_mul, mul_comm,
    zpow_mul, zpow_natCast]
  exact h

/-- Ten is less than the power `10 / 3` of two, and more than the power `93 / 28`. -/
theorem ten_zpow_le {n l : ℤ} (h : 0 ≤ n ∧ 10 * n ≤ 3 * l ∨ n ≤ 0 ∧ 93 * n ≤ 28 * l) : (10 : ℚ) ^ n ≤ 2 ^ l := by
  have hraise : ∀ {j k : ℤ}, j ≤ k → (2 : ℚ) ^ j ≤ 2 ^ k := fun hle => zpow_le_zpow_right₀ one_le_two hle
  rcases h with ⟨hn, hl⟩ | ⟨hn, hl⟩
  · apply zpow_le_of_pow_le (by norm_num) two_pos (k := 3) (by norm_num)
    calc ((10 : ℚ) ^ 3) ^ n ≤ (2 ^ (10 : ℤ)) ^ n := zpow_le_zpow_left₀ hn (by norm_num) (by norm_num)
      _ = 2 ^ (10 * n) := (zpow_mul 2 10 n).symm
      _ ≤ 2 ^ (l * (3 : ℕ)) := hraise (by push_cast; omega)
      _ = (2 ^ l) ^ 3 := by rw [zpow_mul, zpow_natCast]
  · apply zpow_le_of_pow_le (by norm_num) two_pos (k := 28) (by norm_num)
    obtain ⟨k, hk⟩ := Int.eq_ofNat_of_zero_le (show 0 ≤ -n by omega)
    obtain rfl : n = -(k : ℤ) := by omega
    calc ((10 : ℚ) ^ 28) ^ (-(k : ℤ)) ≤ (2 ^ (93 : ℤ)) ^ (-(k : ℤ)) := by
          rw [zpow_neg, zpow_neg, zpow_natCast, zpow_natCast]
          apply inv_anti₀ (by positivity)
          exact pow_le_pow_left₀ (by positivity) (by norm_num) k
      _ = 2 ^ (93 * -(k : ℤ)) := (zpow_mul 2 93 _).symm
      _ ≤ 2 ^ (l * (28 : ℕ)) := hraise (by push_cast; omega)
      _ = (2 ^ l) ^ 28 := by rw [zpow_mul, zpow_natCast]

/-! ## Scaling by a power of ten -/

/-- whether the double is a power of ten, in whole numbers -/
def IsPowerOfTen (x : Float) (k : ℕ) : Prop :=
  x.isFinite = true ∧ isNegative x = false ∧ -52 ≤ (toBinary x).exponent ∧
    (toBinary x).mantissa * 2 ^ ((toBinary x).exponent + 52).toNat = 10 ^ k * 2 ^ 52

instance (x : Float) (k : ℕ) : Decidable (IsPowerOfTen x k) := inferInstanceAs (Decidable (_ ∧ _))

theorem IsPowerOfTen.value_eq {x : Float} {k : ℕ} (h : IsPowerOfTen x k) : value x = 10 ^ k := by
  obtain ⟨hfinite, hsign, hexponent, hmantissa⟩ := h
  rw [value_eq_magnitude hfinite, hsign, magnitude]
  generalize (toBinary x).exponent = e at hexponent hmantissa ⊢
  obtain ⟨j, hj⟩ := Int.eq_ofNat_of_zero_le (show 0 ≤ e + 52 by omega)
  obtain rfl : e = j - 52 := by omega
  have hcast : ((toBinary x).mantissa : ℚ) * 2 ^ j = 10 ^ k * 2 ^ 52 := by
    rw [hj, Int.toNat_natCast] at hmantissa
    exact_mod_cast hmantissa
  rw [zpow_sub₀ two_ne_zero, zpow_natCast, ← mul_div_assoc, hcast]
  norm_num

/-- The powers of ten up to the 22nd are doubles. -/
theorem powersOfTen_value (k : Fin 23) : (Float.exactlyRepresentablePowersOfTen[k]).isFinite = true ∧
    value Float.exactlyRepresentablePowersOfTen[k] = 10 ^ (k : ℕ) := by
  have hall : ∀ k : Fin 23, IsPowerOfTen Float.exactlyRepresentablePowersOfTen[k] k := by decide +kernel
  exact ⟨(hall k).1, (hall k).value_eq⟩

/-- the exponent of ten that is written as a number of digits to move the point by, to the left or to the right -/
def exponentOf (left : Bool) (k : ℕ) : ℤ := if left then -k else k

/-- **Digits with a power of ten** are rounded, on both ways. -/
theorem ofScientific_computes {n k : ℕ} {left : Bool} (hn : 0 < n) (hhigh : exponentOf left k ≤ 2048)
    (hlow : -2048 ≤ exponentOf left k + n.log2) :
    Computes (Float.ofScientific n left k) (n * 10 ^ exponentOf left k) := by
  unfold Float.ofScientific
  split
  · next hshort =>
    obtain ⟨hfinite, hvalue⟩ := toFloat_value hshort.1
    obtain ⟨hten, hpower⟩ := powersOfTen_value ⟨k, by omega⟩
    cases left with
    | false =>
      have hproduct := mul_computes hfinite hten
      rwa [hvalue, hpower, ← zpow_natCast] at hproduct
    | true =>
      have hquotient := div_computes hfinite hten (by rw [hpower]; positivity)
      rwa [hvalue, hpower, div_eq_mul_inv, ← zpow_natCast, ← zpow_neg] at hquotient
  · have hrounds := ofScientific_rounds hn hhigh hlow
    cases left with
    | false => exact hrounds.computes rfl
    | true =>
      have hnegative : exponentOf true k = Int.negOfNat k := by cases k <;> rfl
      rw [hnegative] at hrounds ⊢
      exact hrounds.computes rfl

/-! ## Numbers far outside of the range -/

theorem computes_zero {q : ℚ} (h : nearest q = 0) : Computes 0.0 q := by
  constructor
  · rfl
  · rw [h, saturate_of_lt (by rw [abs_zero]; exact ceiling_pos)]
    rfl

theorem computes_infinity {q : ℚ} (h : ceiling ≤ nearest q) : Computes (1.0 / 0.0) q := by
  constructor
  · rfl
  · rw [saturate, if_pos h]
    rfl

/-- What is nearer to zero than half of the least number of the grid is rounded to zero. -/
theorem nearest_eq_zero {q : ℚ} (hq : 0 ≤ q) (h : 2 * q < 2 ^ (-1074 : ℤ)) : nearest q = 0 := by
  have hpos : (0 : ℚ) < 2 ^ (-1074 : ℤ) := zpow_pos two_pos _
  have hzero : OnGrid 0 := by exact_mod_cast onGrid_natCast (n := 0) (by norm_num)
  have hnear := nearest_nearest (q := q) hzero
  have hnonneg := nearest_nonneg hq
  rw [zero_sub, abs_neg, abs_of_nonneg hq] at hnear
  have hsmall : nearest q < 2 ^ (-1074 : ℤ) := by linarith [(abs_le.1 hnear).2]
  obtain ⟨n, hn⟩ := (nearest_onGrid q).multiple
  rw [hn] at hsmall hnonneg ⊢
  have hlt : (n : ℚ) < 1 := by
    by_contra hge
    nlinarith
  have hge : (0 : ℚ) ≤ n := by
    by_contra hneg
    nlinarith
  have hn' : n = 0 := by
    have : n < 1 := by exact_mod_cast hlt
    have : 0 ≤ n := by exact_mod_cast hge
    omega
  rw [hn', Int.cast_zero, zero_mul]

theorem digits_bounds {d : ℕ} (hd : 0 < d) :
    10 ^ ((Nat.toDigits 10 d).length - 1) ≤ d ∧ d < 10 ^ (Nat.toDigits 10 d).length := by
  have hpos : 0 < (Nat.toDigits 10 d).length := Nat.length_toDigits_pos
  constructor
  · rcases Nat.lt_or_ge 1 (Nat.toDigits 10 d).length with hmore | hone
    · by_contra hlt
      have := (Nat.length_toDigits_le_iff (by norm_num) (by omega)).2 (not_le.1 hlt)
      omega
    · rw [show (Nat.toDigits 10 d).length - 1 = 0 by omega]
      exact hd
  · exact (Nat.length_toDigits_le_iff (by norm_num) hpos).1 le_rfl

/-- A number with its first digit far before the point is infinite. -/
theorem computes_large {d n : ℕ} {e : ℤ} (hlow : 10 ^ n ≤ d) (hlarge : 400 ≤ n + e) :
    Computes (1.0 / 0.0) (d * 10 ^ e) := by
  apply computes_infinity
  rw [ceiling_eq]
  refine le_nearest (onGrid_zpow (by norm_num)) ?_
  have hten : (0 : ℚ) < 10 ^ e := zpow_pos (by norm_num) e
  have hpower : (2 : ℚ) ^ (1024 : ℤ) ≤ 10 ^ (400 : ℤ) := by
    rw [← inv_le_inv₀ (by positivity) (by positivity), ← zpow_neg, ← zpow_neg]
    exact ten_zpow_le (Or.inr (by norm_num))
  have hdigits : (10 : ℚ) ^ n ≤ d := by exact_mod_cast hlow
  calc (2 : ℚ) ^ (1024 : ℤ) ≤ 10 ^ (400 : ℤ) := hpower
    _ ≤ 10 ^ (n + e) := zpow_le_zpow_right₀ (by norm_num) hlarge
    _ = 10 ^ n * 10 ^ e := by rw [zpow_add₀ (by norm_num), zpow_natCast]
    _ ≤ d * 10 ^ e := mul_le_mul_of_nonneg_right hdigits hten.le

/-- A number with its first digit far behind the point is zero. -/
theorem computes_small {d n : ℕ} {e : ℤ} (hhigh : d < 10 ^ n) (hsmall : n + e < -400) :
    Computes 0.0 (d * 10 ^ e) := by
  apply computes_zero
  apply nearest_eq_zero (by positivity)
  have hten : (0 : ℚ) < 10 ^ e := zpow_pos (by norm_num) e
  have hdigits : (d : ℚ) ≤ 10 ^ n := by exact_mod_cast hhigh.le
  have hpower : (10 : ℚ) ^ (n + e) ≤ 2 ^ (-1076 : ℤ) := ten_zpow_le (Or.inr (by omega))
  calc 2 * (d * 10 ^ e : ℚ) ≤ 2 * (10 ^ n * 10 ^ e) := by gcongr
    _ = 2 * 10 ^ (n + e) := by rw [zpow_add₀ (by norm_num), zpow_natCast]
    _ ≤ 2 * 2 ^ (-1076 : ℤ) := by linarith
    _ = 2 ^ (-1075 : ℤ) := by rw [← zpow_one_add₀ two_ne_zero]; norm_num
    _ < 2 ^ (-1074 : ℤ) := zpow_lt_zpow_right₀ one_lt_two (by norm_num)

/-! ## Decimal numbers -/

/-- **Every decimal number is read as the double nearest to it.** -/
theorem ofDecimal_computes (d : ℕ) (e : ℤ) : Computes (ofDecimal d e) (d * 10 ^ e) := by
  unfold ofDecimal
  split
  · next hzero =>
    rw [hzero, Nat.cast_zero, zero_mul]
    exact computes_zero nearest_zero
  · next hne =>
    have hd : 0 < d := Nat.pos_of_ne_zero hne
    obtain ⟨hlow, hhigh⟩ := digits_bounds hd
    have hpos : 0 < (Nat.toDigits 10 d).length := Nat.length_toDigits_pos
    dsimp only
    generalize (Nat.toDigits 10 d).length = len at hlow hhigh hpos ⊢
    split
    · exact computes_large hlow (by omega)
    · split
      · next hsmall => exact computes_small hhigh hsmall
      · have hlog : len - 1 ≤ d.log2 := by
          rw [Nat.le_log2 hd.ne']
          exact (Nat.pow_le_pow_left (by norm_num) _).trans hlow
        split
        · have heq : exponentOf true e.natAbs = e := by
            rw [exponentOf, if_pos rfl]
            omega
          have hcomputes : Computes (Float.ofScientific d true e.natAbs) (d * 10 ^ exponentOf true e.natAbs) :=
            ofScientific_computes hd (by omega) (by omega)
          rwa [heq] at hcomputes
        · have heq : exponentOf false e.natAbs = e := by
            rw [exponentOf, if_neg (by decide)]
            omega
          have hcomputes : Computes (Float.ofScientific d false e.natAbs) (d * 10 ^ exponentOf false e.natAbs) :=
            ofScientific_computes hd (by omega) (by omega)
          rwa [heq] at hcomputes

end CurveScript.Decimals
