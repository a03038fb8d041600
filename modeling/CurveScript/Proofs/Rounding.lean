/-
Rounding a rational number to a double.

The finite doubles are the numbers `m * 2 ^ e` with at most 53 bits in `m` and `e` from -1074 on, up to a largest one.
Without that upper end they form the grid that every operation rounds to. `nearest` is this rounding: the nearest
multiple of the last place of the number, the even one of two that are equally near.

Everything else follows from one fact, that no number of the grid is nearer (`nearest_nearest`): rounding never passes a
number of the grid, so it is monotone, and it leaves the grid alone.

Results:
- `nearestInt_nearest`, `nearestInt_eq`: rounding to whole numbers.
- `nearest_onGrid`, `nearest_nearest`: rounding to the grid.
- `nearest_le`, `le_nearest`, `nearest_mono`, `nearest_eq_self`, `nearest_neg`.
- `abs_nearest_sub_le`, `abs_nearest_sub_le_of_multiple`: the error, below and above the least normal number.
- `OnGrid.spacing`: the grid is as coarse as the last place.
-/
import Mathlib.Data.Int.Log
import Mathlib.Tactic

namespace CurveScript.Rounding

/-! ## Whole numbers -/

/-- the nearest whole number, the even one of two that are equally near -/
def nearestInt (q : ℚ) : ℤ :=
  if Int.fract q < 1 / 2 then ⌊q⌋ else if 1 / 2 < Int.fract q then ⌊q⌋ + 1 else ⌊q⌋ + ⌊q⌋ % 2

theorem nearestInt_cases (q : ℚ) : (nearestInt q = ⌊q⌋ ∧ Int.fract q ≤ 1 / 2) ∨
    (nearestInt q = ⌊q⌋ + 1 ∧ 1 / 2 ≤ Int.fract q) := by
  unfold nearestInt
  split
  · next hlt => exact Or.inl ⟨rfl, hlt.le⟩
  · next hge =>
    split
    · next hgt => exact Or.inr ⟨rfl, hgt.le⟩
    · next hle =>
      rcases Int.emod_two_eq_zero_or_one ⌊q⌋ with heven | hodd
      · rw [heven]
        exact Or.inl ⟨add_zero _, not_lt.1 hle⟩
      · rw [hodd]
        exact Or.inr ⟨rfl, not_lt.1 hge⟩

theorem abs_nearestInt_sub_le (q : ℚ) : |(nearestInt q : ℚ) - q| ≤ 1 / 2 := by
  have hfloor := Int.self_sub_floor q
  have hnonneg := Int.fract_nonneg q
  have hlt := Int.fract_lt_one q
  rw [abs_le]
  rcases nearestInt_cases q with ⟨heq, hfract⟩ | ⟨heq, hfract⟩
  · rw [heq]
    constructor <;> linarith
  · rw [heq]
    push_cast
    constructor <;> linarith

/-- **No whole number is nearer.** -/
theorem nearestInt_nearest (q : ℚ) (n : ℤ) : |(nearestInt q : ℚ) - q| ≤ |(n : ℚ) - q| := by
  by_cases heq : n = nearestInt q
  · rw [heq]
  · have hapart : (1 : ℚ) ≤ |(n : ℚ) - nearestInt q| := by
      exact_mod_cast Int.one_le_abs (sub_ne_zero.2 heq)
    have hsplit : |(n : ℚ) - nearestInt q| ≤ |(n : ℚ) - q| + |(nearestInt q : ℚ) - q| := by
      rw [abs_sub_comm (nearestInt q : ℚ) q]
      exact abs_sub_le _ _ _
    have herror := abs_nearestInt_sub_le q
    linarith

theorem nearestInt_le {q : ℚ} {n : ℤ} (h : q ≤ n) : nearestInt q ≤ n := by
  by_contra hlt
  have hpast : (n : ℚ) < nearestInt q := by exact_mod_cast not_le.1 hlt
  have hnear := nearestInt_nearest q n
  rw [abs_of_nonneg (by linarith), abs_of_nonneg (by linarith)] at hnear
  linarith

theorem le_nearestInt {q : ℚ} {n : ℤ} (h : (n : ℚ) ≤ q) : n ≤ nearestInt q := by
  by_contra hlt
  have hpast : (nearestInt q : ℚ) < n := by exact_mod_cast not_le.1 hlt
  have hnear := nearestInt_nearest q n
  rw [abs_of_nonpos (by linarith), abs_of_nonpos (by linarith)] at hnear
  linarith

theorem nearestInt_neg (q : ℚ) : nearestInt (-q) = -nearestInt q := by
  by_cases hwhole : Int.fract q = 0
  · -- both sides round a whole number
    obtain ⟨n, rfl⟩ : ∃ n : ℤ, q = n := ⟨⌊q⌋, (Int.fract_eq_zero_iff.1 hwhole).elim fun n hn => by simp [← hn]⟩
    have hself : ∀ k : ℤ, nearestInt (k : ℚ) = k := fun k =>
      le_antisymm (nearestInt_le le_rfl) (le_nearestInt le_rfl)
    rw [← Int.cast_neg, hself, hself]
  · have hfract : Int.fract (-q) = 1 - Int.fract q := Int.fract_neg hwhole
    have hfloor : ⌊-q⌋ = -⌊q⌋ - 1 := by
      have h := Int.self_sub_floor (-q)
      have h' := Int.self_sub_floor q
      have : (⌊-q⌋ : ℚ) = ((-⌊q⌋ - 1 : ℤ) : ℚ) := by push_cast; linarith
      exact_mod_cast this
    unfold nearestInt
    rw [hfract, hfloor]
    rcases lt_trichotomy (Int.fract q) (1 / 2) with hlt | heq | hgt
    · rw [if_neg (by linarith), if_pos (by linarith), if_pos hlt]
      ring
    · rw [if_neg (by linarith), if_neg (by linarith), if_neg (by linarith), if_neg (by linarith)]
      omega
    · rw [if_pos (by linarith), if_neg (by linarith), if_pos hgt]
      ring

/-- A number less than a half away is rounded to the whole number, and one half away if that is even. -/
theorem nearestInt_eq {q : ℚ} {n : ℤ} (h : |q - n| < 1 / 2 ∨ |q - n| ≤ 1 / 2 ∧ n % 2 = 0) : nearestInt q = n := by
  have hle : |q - n| ≤ 1 / 2 := h.elim le_of_lt And.left
  rw [abs_le] at hle
  have htie : |q - n| = 1 / 2 → n % 2 = 0 := fun heq => h.elim (fun hlt => absurd heq hlt.ne) And.right
  unfold nearestInt
  rcases le_or_gt (n : ℚ) q with hge | hlt
  · have hfloor : ⌊q⌋ = n := Int.floor_eq_iff.2 ⟨hge, by linarith⟩
    have hfract : Int.fract q = q - n := by rw [Int.fract, hfloor]
    rw [hfract, hfloor]
    split
    · rfl
    · next hhalf =>
      have heven := htie (by rw [abs_of_nonneg] <;> linarith)
      rw [if_neg (by linarith), heven, add_zero]
  · have hfloor : ⌊q⌋ = n - 1 := by
      rw [Int.floor_eq_iff]
      push_cast
      constructor <;> linarith
    have hfract : Int.fract q = q - n + 1 := by
      rw [Int.fract, hfloor]
      push_cast
      ring
    rw [hfract, hfloor, if_neg (by linarith)]
    split
    · exact sub_add_cancel n 1
    · next hhalf =>
      have heven := htie (by rw [abs_of_nonpos] <;> linarith)
      omega

/-! ## The grid -/

/-- the numbers with at most 53 bits from the place of `2 ^ -1074` on -/
def OnGrid (q : ℚ) : Prop := ∃ m e : ℤ, |m| ≤ 2 ^ 53 ∧ -1074 ≤ e ∧ q = m * 2 ^ e

theorem onGrid_intCast {n : ℤ} (h : |n| ≤ 2 ^ 53) : OnGrid n := ⟨n, 0, h, by norm_num, by simp⟩

theorem onGrid_natCast {n : ℕ} (h : n ≤ 2 ^ 53) : OnGrid n := by
  have hgrid : OnGrid ((n : ℤ) : ℚ) := onGrid_intCast (by rw [abs_of_nonneg (Int.natCast_nonneg n)]; exact_mod_cast h)
  exact_mod_cast hgrid

theorem onGrid_half {n : ℤ} (h : |n| < 2 ^ 52) : OnGrid (n + 1 / 2) := by
  refine ⟨2 * n + 1, -1, ?_, by norm_num, ?_⟩
  · rw [abs_lt] at h
    rw [abs_le]
    constructor <;> omega
  · push_cast
    rw [zpow_neg_one]
    ring

theorem OnGrid.neg {q : ℚ} (h : OnGrid q) : OnGrid (-q) := by
  obtain ⟨m, e, hm, he, rfl⟩ := h
  exact ⟨-m, e, by rwa [abs_neg], he, by push_cast; ring⟩

/-- A power of two is on the grid. -/
theorem onGrid_zpow {e : ℤ} (he : -1074 ≤ e) : OnGrid (2 ^ e) := ⟨1, e, by norm_num, he, by simp⟩

/-- whole multiples of the least positive number of the grid -/
def Multiple (q : ℚ) : Prop := ∃ n : ℤ, q = n * 2 ^ (-1074 : ℤ)

/-- A multiple of a power of two is one of each smaller power. -/
theorem exists_mul_zpow (m : ℤ) {e f : ℤ} (h : f ≤ e) : ∃ n : ℤ, (m : ℚ) * 2 ^ e = n * 2 ^ f := by
  obtain ⟨k, rfl⟩ := Int.le.dest h
  refine ⟨m * 2 ^ k, ?_⟩
  rw [zpow_add₀ two_ne_zero, zpow_natCast]
  push_cast
  ring

theorem OnGrid.multiple {q : ℚ} (h : OnGrid q) : Multiple q := by
  obtain ⟨m, e, -, he, rfl⟩ := h
  exact exists_mul_zpow m he

theorem Multiple.add {p q : ℚ} (hp : Multiple p) (hq : Multiple q) : Multiple (p + q) := by
  obtain ⟨m, rfl⟩ := hp
  obtain ⟨n, rfl⟩ := hq
  exact ⟨m + n, by rw [Int.cast_add, add_mul]⟩

theorem Multiple.sub {p q : ℚ} (hp : Multiple p) (hq : Multiple q) : Multiple (p - q) := by
  obtain ⟨m, rfl⟩ := hp
  obtain ⟨n, rfl⟩ := hq
  exact ⟨m - n, by rw [Int.cast_sub, sub_mul]⟩

theorem Multiple.natMul {q : ℚ} (h : Multiple q) (k : ℕ) : Multiple (k * q) := by
  obtain ⟨n, rfl⟩ := h
  exact ⟨k * n, by rw [Int.cast_mul, Int.cast_natCast, mul_assoc]⟩

/-- The grid is as coarse as the last place of its numbers. -/
theorem OnGrid.spacing {q : ℚ} (h : OnGrid q) {k : ℤ} (hk : (2 : ℚ) ^ (k + 52) ≤ |q|) :
    ∃ n : ℤ, q = n * 2 ^ k := by
  obtain ⟨m, e, hm, he, rfl⟩ := h
  rcases le_or_gt k e with hle | hlt
  · exact exists_mul_zpow m hle
  · -- the mantissa is as large as it can be
    have htwo : (0 : ℚ) < 2 ^ e := zpow_pos two_pos e
    have hpow : (2 : ℚ) ^ (53 : ℤ) * 2 ^ e ≤ 2 ^ (k + 52) := by
      rw [← zpow_add₀ two_ne_zero]
      exact zpow_le_zpow_right₀ one_le_two (by omega)
    rw [abs_mul, abs_of_pos htwo] at hk
    have hge : (2 ^ 53 : ℤ) ≤ |m| := by
      have : (2 : ℚ) ^ (53 : ℤ) ≤ |(m : ℚ)| := le_of_mul_le_mul_right (hpow.trans hk) htwo
      exact_mod_cast this
    have hfull : |m| = 2 ^ 53 := le_antisymm hm hge
    have hke : k = e + 1 := by
      have hpow' : (2 : ℚ) ^ (k + 52) ≤ 2 ^ (53 + e) := by
        rw [zpow_add₀ two_ne_zero 53]
        refine hk.trans (le_of_eq ?_)
        rw [← Int.cast_abs, hfull]
        norm_num
      have := (zpow_le_zpow_iff_right₀ (one_lt_two : (1 : ℚ) < 2)).1 hpow'
      omega
    have hstep : (2 : ℚ) ^ k = 2 * 2 ^ e := by
      rw [hke, zpow_add₀ two_ne_zero, zpow_one, mul_comm]
    rcases abs_eq (by norm_num) |>.1 hfull with rfl | rfl
    · exact ⟨2 ^ 52, by rw [hstep]; push_cast; ring⟩
    · exact ⟨-2 ^ 52, by rw [hstep]; push_cast; ring⟩

/-! ## Rounding -/

/-- the exponent of the last place of a number -/
def place (q : ℚ) : ℤ := max (Int.log 2 |q| - 52) (-1074)

/-- the double nearest to a number if there is no largest one, with an even last place if two are equally near -/
def nearest (q : ℚ) : ℚ := nearestInt (q / 2 ^ place q) * 2 ^ place q

theorem place_neg (q : ℚ) : place (-q) = place q := by rw [place, place, abs_neg]

theorem zpow_log_le {q : ℚ} (h : q ≠ 0) : (2 : ℚ) ^ Int.log 2 |q| ≤ |q| := by
  exact_mod_cast Int.zpow_log_le_self (b := 2) one_lt_two (abs_pos.2 h)

theorem lt_zpow_place (q : ℚ) : |q| < 2 ^ 53 * 2 ^ place q := by
  have hlog : |q| < 2 ^ (Int.log 2 |q| + 1) := by exact_mod_cast Int.lt_zpow_succ_log_self (b := 2) one_lt_two |q|
  refine hlog.trans_le ?_
  have hsplit : (2 : ℚ) ^ 53 * 2 ^ place q = 2 ^ (53 + place q) := by
    rw [zpow_add₀ two_ne_zero]
    norm_num
  rw [hsplit]
  refine zpow_le_zpow_right₀ one_le_two ?_
  unfold place
  omega

/-- A rounded mantissa has 53 bits, but for one more that rounding may carry into. -/
theorem mantissa_le {q : ℚ} : nearestInt (q / 2 ^ place q) ≤ 2 ^ 53 := by
  refine nearestInt_le ?_
  rw [div_le_iff₀ (zpow_pos two_pos _)]
  exact_mod_cast (le_abs_self q).trans (lt_zpow_place q).le

/-- It has no fewer above the least place. -/
theorem le_mantissa {q : ℚ} (hq : 0 < q) (h : -1074 < place q) : 2 ^ 52 ≤ nearestInt (q / 2 ^ place q) := by
  have hlog : Int.log 2 |q| = 52 + place q := by
    unfold place at h ⊢
    omega
  have hpower : (2 : ℚ) ^ 52 * 2 ^ place q ≤ q := by
    refine le_trans (le_of_eq ?_) ((zpow_log_le hq.ne').trans_eq (abs_of_pos hq))
    rw [hlog, zpow_add₀ two_ne_zero]
    norm_num
  refine le_nearestInt ?_
  rw [le_div_iff₀ (zpow_pos two_pos _)]
  exact_mod_cast hpower

/-- **Rounding gives a number of the grid.** -/
theorem nearest_onGrid (q : ℚ) : OnGrid (nearest q) := by
  have hpos : (0 : ℚ) < 2 ^ place q := zpow_pos two_pos _
  have hbound : |q / 2 ^ place q| ≤ ((2 ^ 53 : ℤ) : ℚ) := by
    rw [abs_div, abs_of_pos hpos, div_le_iff₀ hpos]
    exact_mod_cast (lt_zpow_place q).le
  refine ⟨nearestInt (q / 2 ^ place q), place q, ?_, le_max_right _ _, rfl⟩
  rw [abs_le] at hbound ⊢
  exact ⟨le_nearestInt (by exact_mod_cast hbound.1), nearestInt_le (by exact_mod_cast hbound.2)⟩

/-- No multiple of the last place is nearer. -/
theorem nearest_nearest_multiple (q : ℚ) (n : ℤ) : |nearest q - q| ≤ |n * 2 ^ place q - q| := by
  have hpos : (0 : ℚ) < 2 ^ place q := zpow_pos two_pos _
  have hscale : ∀ k : ℤ, |(k : ℚ) * 2 ^ place q - q| = |(k : ℚ) - q / 2 ^ place q| * 2 ^ place q := by
    intro k
    rw [← abs_of_pos hpos, ← abs_mul, abs_of_pos hpos, sub_mul, div_mul_cancel₀ _ hpos.ne']
  rw [nearest, hscale, hscale]
  exact mul_le_mul_of_nonneg_right (nearestInt_nearest _ _) hpos.le

theorem nearest_zero : nearest 0 = 0 := by
  have h := nearest_nearest_multiple 0 0
  simpa using h

/-- **No number of the grid is nearer.** -/
theorem nearest_nearest {q g : ℚ} (hg : OnGrid g) : |nearest q - q| ≤ |g - q| := by
  by_cases hzero : q = 0
  · rw [hzero, nearest_zero]
    simp
  obtain ⟨m, e, hm, he, rfl⟩ := hg
  rcases le_or_gt (place q) e with hle | hlt
  · obtain ⟨n, hn⟩ := exists_mul_zpow m hle
    rw [hn]
    exact nearest_nearest_multiple q n
  · -- the number of the grid is at most the power of two below `q`, which is a multiple of the last place
    have hplace : place q = Int.log 2 |q| - 52 := by
      unfold place at hlt ⊢
      omega
    have hpower : (2 : ℚ) ^ 52 * 2 ^ place q ≤ |q| := by
      have hsplit : (2 : ℚ) ^ 52 * 2 ^ place q = 2 ^ Int.log 2 |q| := by
        rw [hplace, zpow_sub₀ two_ne_zero]
        norm_num
        ring
      rw [hsplit]
      exact zpow_log_le hzero
    have hsmall : |(m : ℚ) * 2 ^ e| ≤ 2 ^ 52 * 2 ^ place q := by
      have hstep : (2 : ℚ) * 2 ^ e ≤ 2 ^ place q := by
        rw [← zpow_one_add₀ two_ne_zero]
        exact zpow_le_zpow_right₀ one_le_two (by omega)
      have hmantissa : |(m : ℚ)| ≤ 2 ^ 53 := by exact_mod_cast hm
      have hpos : (0 : ℚ) < 2 ^ e := zpow_pos two_pos e
      rw [abs_mul, abs_of_pos hpos]
      nlinarith
    rw [abs_le] at hsmall
    rcases lt_or_gt_of_ne hzero with hneg | hpos
    · rw [abs_of_neg hneg] at hpower
      refine (nearest_nearest_multiple q (-2 ^ 52)).trans ?_
      push_cast
      rw [abs_of_nonneg (by linarith), abs_of_nonneg (by linarith)]
      linarith
    · rw [abs_of_pos hpos] at hpower
      refine (nearest_nearest_multiple q (2 ^ 52)).trans ?_
      push_cast
      rw [abs_of_nonpos (by linarith), abs_of_nonpos (by linarith)]
      linarith

/-- Rounding does not pass a number of the grid. -/
theorem nearest_le {q g : ℚ} (hg : OnGrid g) (h : q ≤ g) : nearest q ≤ g := by
  by_contra hlt
  have hnear := nearest_nearest (q := q) hg
  rw [abs_of_nonneg (by linarith), abs_of_nonneg (by linarith)] at hnear
  linarith

theorem le_nearest {q g : ℚ} (hg : OnGrid g) (h : g ≤ q) : g ≤ nearest q := by
  by_contra hlt
  have hnear := nearest_nearest (q := q) hg
  rw [abs_of_nonpos (by linarith), abs_of_nonpos (by linarith)] at hnear
  linarith

theorem nearest_eq_self {g : ℚ} (hg : OnGrid g) : nearest g = g :=
  le_antisymm (nearest_le hg le_rfl) (le_nearest hg le_rfl)

/-- **Rounding is monotone.** If it exchanged two numbers, both would lie between the results, each nearer to the one
that the other is rounded to. -/
theorem nearest_mono {p q : ℚ} (h : p ≤ q) : nearest p ≤ nearest q := by
  by_contra hlt
  rw [not_le] at hlt
  have hq : q < nearest p := by
    by_contra hge
    exact absurd (le_nearest (nearest_onGrid p) (not_lt.1 hge)) (not_le.2 hlt)
  have hp : nearest q < p := by
    by_contra hge
    exact absurd (nearest_le (nearest_onGrid q) (not_lt.1 hge)) (not_le.2 hlt)
  have hnearp := nearest_nearest (q := p) (nearest_onGrid q)
  have hnearq := nearest_nearest (q := q) (nearest_onGrid p)
  rw [abs_of_nonneg (by linarith), abs_of_nonpos (by linarith)] at hnearp
  rw [abs_of_nonpos (by linarith), abs_of_nonneg (by linarith)] at hnearq
  have heq : p = q := by linarith
  rw [heq] at hlt
  exact lt_irrefl _ hlt

theorem nearest_neg (q : ℚ) : nearest (-q) = -nearest q := by
  rw [nearest, nearest, place_neg, neg_div, nearestInt_neg]
  push_cast
  ring

theorem nearest_nonneg {q : ℚ} (h : 0 ≤ q) : 0 ≤ nearest q := by
  have hmono := nearest_mono h
  rwa [nearest_zero] at hmono

/-! ## The error -/

theorem abs_nearest_sub_le_place (q : ℚ) : |nearest q - q| ≤ 2 ^ place q / 2 := by
  have hpos : (0 : ℚ) < 2 ^ place q := zpow_pos two_pos _
  have hscale : nearest q - q = ((nearestInt (q / 2 ^ place q) : ℚ) - q / 2 ^ place q) * 2 ^ place q := by
    rw [nearest, sub_mul, div_mul_cancel₀ _ hpos.ne']
  rw [hscale, abs_mul, abs_of_pos hpos]
  have herror := abs_nearestInt_sub_le (q / 2 ^ place q)
  nlinarith

/-- The error is relative from the least normal number on, and constant below it. -/
theorem abs_nearest_sub_le (q : ℚ) : |nearest q - q| ≤ max |q| (2 ^ (-1022 : ℤ)) / 2 ^ 53 := by
  by_cases hzero : q = 0
  · rw [hzero, nearest_zero, sub_zero, abs_zero]
    positivity
  have hhalf : (2 : ℚ) ^ place q / 2 = 2 ^ (place q + 52) / 2 ^ 53 := by
    rw [zpow_add₀ two_ne_zero]
    norm_num
    ring
  have hplace : (2 : ℚ) ^ (place q + 52) ≤ max |q| (2 ^ (-1022 : ℤ)) := by
    rcases le_total (Int.log 2 |q| - 52) (-1074) with hle | hge
    · refine le_max_of_le_right (zpow_le_zpow_right₀ one_le_two ?_)
      rw [place, max_eq_right hle]
      norm_num
    · refine le_max_of_le_left ?_
      rw [place, max_eq_left hge, sub_add_cancel]
      exact zpow_log_le hzero
  calc |nearest q - q| ≤ 2 ^ place q / 2 := abs_nearest_sub_le_place q
    _ = 2 ^ (place q + 52) / 2 ^ 53 := hhalf
    _ ≤ max |q| (2 ^ (-1022 : ℤ)) / 2 ^ 53 := by gcongr

/-- The error of a multiple of the least positive number is relative: below the least normal number there is none. -/
theorem abs_nearest_sub_le_of_multiple {q : ℚ} (hq : Multiple q) : |nearest q - q| ≤ |q| / 2 ^ 53 := by
  rcases le_total (2 ^ (-1022 : ℤ)) |q| with hnormal | hsmall
  · have herror := abs_nearest_sub_le q
    rwa [max_eq_left hnormal] at herror
  · have hgrid : OnGrid q := by
      obtain ⟨n, rfl⟩ := hq
      refine ⟨n, -1074, ?_, le_rfl, rfl⟩
      have hpos : (0 : ℚ) < 2 ^ (-1074 : ℤ) := zpow_pos two_pos _
      have hsplit : (2 : ℚ) ^ (-1022 : ℤ) = 2 ^ 52 * 2 ^ (-1074 : ℤ) := by
        rw [← zpow_natCast, ← zpow_add₀ two_ne_zero]
        norm_num
      rw [abs_mul, abs_of_pos hpos, hsplit] at hsmall
      have hn : |(n : ℚ)| ≤ 2 ^ 52 := le_of_mul_le_mul_right hsmall hpos
      have hn' : |n| ≤ 2 ^ 52 := by exact_mod_cast hn
      omega
    rw [nearest_eq_self hgrid, sub_self, abs_zero]
    positivity

theorem nearest_between {q : ℚ} (hq : Multiple q) (hnonneg : 0 ≤ q) :
    q - q / 2 ^ 53 ≤ nearest q ∧ nearest q ≤ q + q / 2 ^ 53 := by
  have herror := abs_nearest_sub_le_of_multiple hq
  rw [abs_of_nonneg hnonneg, abs_le] at herror
  constructor
  · linarith [herror.1]
  · linarith [herror.2]

end CurveScript.Rounding
