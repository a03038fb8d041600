/-
How many points a range has.

The count of an admitted range comes out of three roundings: of the width of the interval, of its quotient by the step,
and of the quotient with the tolerance added; then the whole part is taken. `Reckoned` says what these roundings are, and
everything about points follows from it.

The quotient is below the point limit, but the tolerance can lift it to the limit. That happens from `brim` on, nine
places of the doubles there below the limit, and the range then has one point more than the limit (`count_le`,
`count_full`). An interval split into equal steps has one point more than steps, as long as the step is a normal number:
then the three errors together are less than the tolerance (`split_count`). A step below the normal numbers is rounded
so coarsely that the count can be anything.

Results:
- `reckoned`: what admission says of the numbers.
- `count_iff`, `count_le`, `count_full`, `split_count`: the counts.
- `points_counted`: the theorem.
Witness: `brim_and_hundreds`. Refutation: `limit_exceeded`.
-/
import CurveScript.Proofs.Graphs
import CurveScript.Proofs.Operations

namespace CurveScript.Counting

open CurveScript.Rounding CurveScript.Doubles CurveScript.Operations CurveScript.Graphs

/-! ## Literals -/

theorem value_zero : (0.0 : Float).isFinite = true ∧ value 0.0 = 0 := ⟨rfl, rfl⟩

theorem limit_value : (Float.ofNat SampleRange.pointLimit).isFinite = true ∧
    value (Float.ofNat SampleRange.pointLimit) = 1000000 := ofNat_value (n := SampleRange.pointLimit) (by decide)

/-- The tolerance is almost a billionth. -/
theorem tolerance_value : (1e-9 : Float).isFinite = true ∧ value 1e-9 = 4835703278458517 / 2 ^ 82 := by
  obtain ⟨hfinite, hvalue⟩ := value_of_unpack (x := 1e-9) (m := 4835703278458517) (e := -82) (by decide) rfl
  refine ⟨hfinite, hvalue.trans ?_⟩
  norm_num

/-! ## What admission says -/

/-- the width of the interval -/
def width (r : SampleRange) : Float := r.stop - r.start

/-- how many steps the interval has, not rounded to a whole number -/
def quotient (r : SampleRange) : Float := width r / r.step

/-- the numbers behind the count of points -/
structure Reckoned (r : SampleRange) : Prop where
  start : r.start.isFinite = true
  stop : r.stop.isFinite = true
  step : r.step.isFinite = true
  order : value r.start ≤ value r.stop
  positive : 0 < value r.step
  width_finite : (width r).isFinite = true
  width_value : value (width r) = nearest (value r.stop - value r.start)
  quotient_finite : (quotient r).isFinite = true
  quotient_value : value (quotient r) = nearest (value (width r) / value r.step)
  quotient_lt : value (quotient r) < 1000000

/-- **What admission says of the numbers.** A width or a quotient that is too large for a double is infinite, and not
below the limit. -/
theorem reckoned {r : SampleRange} (h : SampleRange.make? r.start r.stop r.step = some r) : Reckoned r := by
  obtain ⟨hstart, hstop, hstep, horder, hpositive, hlimit⟩ := range_admissible h
  have horder' := (le_iff_value hstart hstop).1 horder
  have hpositive' : 0 < value r.step := by
    have := (lt_iff_value value_zero.1 hstep).1 hpositive
    rwa [value_zero.2] at this
  have hwidth : Computes (width r) (value r.stop - value r.start) := sub_computes hstop hstart
  have hfar : level (Float.ofNat SampleRange.pointLimit) < ⊤ := by
    rw [level_of_isFinite limit_value.1]
    exact coe_lt_top _
  have hbelow : ∀ {x : Float}, x.isNaN = false → x < Float.ofNat SampleRange.pointLimit → level x ≠ ⊤ := by
    intro x hx hlt htop
    rw [lt_iff hx (isNaN_of_isFinite limit_value.1), htop] at hlt
    exact absurd hlt hfar.not_gt
  rcases hwidth.finite_or_top (sub_nonneg.2 horder') with ⟨hwidthfinite, hwidthvalue⟩ | htop
  · have hquotient : Computes (quotient r) (value (width r) / value r.step) :=
      div_computes hwidthfinite hstep hpositive'.ne'
    have hnonneg : 0 ≤ value (width r) / value r.step := by
      rw [hwidthvalue]
      exact div_nonneg (nearest_nonneg (sub_nonneg.2 horder')) hpositive'.le
    obtain ⟨hfinite, hvalue⟩ := (hquotient.finite_or_top hnonneg).resolve_right (hbelow hquotient.number hlimit)
    refine ⟨hstart, hstop, hstep, horder', hpositive', hwidthfinite, hwidthvalue, hfinite, hvalue, ?_⟩
    rw [← limit_value.2]
    exact (lt_iff_value hfinite limit_value.1).1 hlimit
  · obtain ⟨hnumber, hinfinite⟩ := top_div htop hstep hpositive'
    exact absurd hinfinite (hbelow hnumber hlimit)

section Counts

variable {r : SampleRange} (h : Reckoned r)

include h

theorem quotient_nonneg : 0 ≤ value (quotient r) := by
  rw [h.quotient_value, h.width_value]
  exact nearest_nonneg (div_nonneg (nearest_nonneg (sub_nonneg.2 h.order)) h.positive.le)

/-- The quotient with the tolerance stays below the next whole number. -/
theorem tolerated : (quotient r + 1e-9).isFinite = true ∧
    value (quotient r + 1e-9) = nearest (value (quotient r) + value 1e-9) ∧ 0 ≤ value (quotient r + 1e-9) ∧
    value (quotient r + 1e-9) < 1000001 := by
  have hnonneg : 0 ≤ value (quotient r) + value 1e-9 := by
    have := quotient_nonneg h
    rw [tolerance_value.2]
    positivity
  have hle : nearest (value (quotient r) + value 1e-9) ≤ 1000000 + 1 / 2 := by
    refine nearest_le (by exact_mod_cast onGrid_half (n := 1000000) (by norm_num)) ?_
    have := h.quotient_lt
    rw [tolerance_value.2]
    linarith
  have hpos := nearest_nonneg hnonneg
  obtain ⟨hfinite, hvalue⟩ := (add_computes h.quotient_finite tolerance_value.1).finite (by
    rw [abs_of_nonneg hpos]
    exact lt_ceiling (hle.trans (by norm_num)))
  exact ⟨hfinite, hvalue, hvalue ▸ hpos, by linarith⟩

/-- The count is the whole part, with the first point counted. -/
theorem pointCount_eq : r.pointCount = ⌊value (quotient r + 1e-9)⌋₊ + 1 := by
  obtain ⟨hfinite, -, hnonneg, hlt⟩ := tolerated h
  have hfloor : ⌊value (quotient r + 1e-9)⌋₊ < 1000001 := (Nat.floor_lt hnonneg).2 (by exact_mod_cast hlt)
  have hwhole : (quotient r + 1e-9).toUInt64.toNat = ⌊value (quotient r + 1e-9)⌋₊ :=
    toUInt64_toNat hfinite hnonneg (hlt.trans (by norm_num))
  change ((quotient r + 1e-9).toUInt64 + 1).toNat = _
  rw [UInt64.toNat_add, hwhole]
  exact Nat.mod_eq_of_lt (by simp only [UInt64.toNat_one]; omega)

/-! ## The limit -/

/-- **At most one point more than the limit.** -/
theorem count_le : r.pointCount ≤ SampleRange.pointLimit + 1 := by
  obtain ⟨-, -, hnonneg, hlt⟩ := tolerated h
  rw [pointCount_eq h]
  have : ⌊value (quotient r + 1e-9)⌋₊ < 1000001 := (Nat.floor_lt hnonneg).2 (by exact_mod_cast hlt)
  exact Nat.lt_succ_iff.1 (Nat.succ_lt_succ this)

/-- The count as doubles say it: whole numbers of steps that fit are compared with the quotient and its tolerance. -/
theorem count_iff (n : ℕ) : r.pointCount = n + 1 ↔
    Float.ofNat n ≤ quotient r + 1e-9 ∧ quotient r + 1e-9 < Float.ofNat (n + 1) := by
  obtain ⟨hfinite, -, hnonneg, hlt⟩ := tolerated h
  have hle := count_le h
  unfold SampleRange.pointLimit at hle
  rcases le_or_gt n 1000000 with hfew | hmany
  · obtain ⟨hnfinite, hnvalue⟩ := ofNat_value (hfew.trans (by norm_num))
    obtain ⟨hsfinite, hsvalue⟩ := ofNat_value (n := n + 1) ((Nat.succ_le_succ hfew).trans (by norm_num))
    rw [le_iff_value hnfinite hfinite, lt_iff_value hfinite hsfinite, hnvalue, hsvalue, pointCount_eq h,
      Nat.add_right_cancel_iff, Nat.floor_eq_iff hnonneg]
    push_cast
    rfl
  · -- so many steps are neither counted nor below the quotient
    have hfar : quotient r + 1e-9 < Float.ofNat n := by
      have hmono := (ofNat_computes 1000001).mono (ofNat_computes n) (by exact_mod_cast hmany)
      obtain ⟨hmfinite, hmvalue⟩ := ofNat_value (n := 1000001) (by norm_num)
      rw [lt_iff (isNaN_of_isFinite hfinite) (ofNat_computes n).number]
      refine lt_of_lt_of_le ?_ hmono
      rw [level_of_isFinite hfinite, level_of_isFinite hmfinite, hmvalue]
      exact coe_lt_coe.2 (by exact_mod_cast hlt)
    constructor
    · intro hcount
      omega
    · rintro ⟨hreached, -⟩
      rw [lt_iff (isNaN_of_isFinite hfinite) (ofNat_computes n).number] at hfar
      rw [le_iff (ofNat_computes n).number (isNaN_of_isFinite hfinite)] at hreached
      exact absurd hfar hreached.not_gt

theorem count_full_iff : r.pointCount = SampleRange.pointLimit + 1 ↔ 1000000 ≤ value (quotient r + 1e-9) := by
  obtain ⟨-, -, hnonneg, -⟩ := tolerated h
  have hle := count_le h
  rw [pointCount_eq h] at hle ⊢
  have hfloor : 1000000 ≤ ⌊value (quotient r + 1e-9)⌋₊ ↔ (1000000 : ℚ) ≤ value (quotient r + 1e-9) := by
    rw [Nat.le_floor_iff hnonneg]
    norm_num
  rw [← hfloor]
  unfold SampleRange.pointLimit at hle ⊢
  omega

end Counts

/-- the least quotient that the tolerance lifts to the limit -/
def brim : Float := 999999.999999999

/-- the double right below the brim -/
def beneath : Float := 999999.9999999988

theorem brim_value : brim.isFinite = true ∧ value brim = 8589934591999991 * 2 ^ (-33 : ℤ) :=
  value_of_unpack (by decide) rfl

theorem beneath_value : beneath.isFinite = true ∧ value beneath = 8589934591999990 * 2 ^ (-33 : ℤ) :=
  value_of_unpack (by decide) rfl

/-- With the tolerance, the brim is rounded to the limit. -/
theorem brim_lifted : 1000000 ≤ nearest (value brim + value 1e-9) := by
  obtain ⟨hfinite, hvalue⟩ := value_of_unpack (x := brim + 1e-9) (m := 8589934592000000) (e := -33) (by decide) rfl
  rw [← (add_computes brim_value.1 tolerance_value.1).value_eq hfinite, hvalue]
  norm_num

/-- With the tolerance, the double below the brim is rounded to one below the limit. -/
theorem beneath_not_lifted : nearest (value beneath + value 1e-9) < 1000000 := by
  obtain ⟨hfinite, hvalue⟩ :=
    value_of_unpack (x := beneath + 1e-9) (m := 8589934591999999) (e := -33) (by decide) rfl
  rw [← (add_computes beneath_value.1 tolerance_value.1).value_eq hfinite, hvalue]
  norm_num

/-- No double lies between the two. -/
theorem le_beneath {q : ℚ} (hq : OnGrid q) (hlt : q < value brim) : q ≤ value beneath := by
  rw [brim_value.2] at hlt
  rw [beneath_value.2]
  rcases lt_or_ge q (2 ^ (-33 + 52 : ℤ)) with hsmall | hlarge
  · refine hsmall.le.trans ?_
    norm_num
  · obtain ⟨n, rfl⟩ := hq.spacing (hlarge.trans (le_abs_self q))
    have hpos : (0 : ℚ) < 2 ^ (-33 : ℤ) := zpow_pos two_pos _
    have hn : n < 8589934591999991 := by exact_mod_cast lt_of_mul_lt_mul_right hlt hpos.le
    have hn' : (n : ℚ) ≤ 8589934591999990 := by exact_mod_cast Int.lt_add_one_iff.1 hn
    exact mul_le_mul_of_nonneg_right hn' hpos.le

/-- **The one point more** comes from the brim on. -/
theorem count_full {r : SampleRange} (h : Reckoned r) :
    r.pointCount = SampleRange.pointLimit + 1 ↔ brim ≤ quotient r := by
  rw [count_full_iff h, (tolerated h).2.1, le_iff_value brim_value.1 h.quotient_finite]
  constructor
  · intro hfull
    by_contra hlt
    have hle := le_beneath (value_onGrid _) (not_le.1 hlt)
    have hnear := nearest_mono (add_le_add_left hle (value 1e-9))
    have := beneath_not_lifted
    linarith
  · intro hle
    exact brim_lifted.trans (nearest_mono (by linarith))

/-! ## Equal steps -/

/-- A step that was rounded as a normal number goes into the width almost as often as it should. -/
theorem abs_div_step_sub_le {d n s : ℚ} (hn : 0 < n) (hstep : s = nearest (d / n)) (hnormal : 2 ^ (-1022 : ℤ) ≤ s) :
    |d / s - n| ≤ n / 2 ^ 52 := by
  have herror := abs_nearest_sub_le (d / n)
  have hleast : (0 : ℚ) < 2 ^ (-1022 : ℤ) := zpow_pos two_pos _
  rw [← hstep] at herror
  generalize (2 : ℚ) ^ (-1022 : ℤ) = w at *
  have hs : 0 < s := hleast.trans_le hnormal
  have hshare : 0 < d / n := by
    by_contra hneg
    have hle := nearest_mono (not_lt.1 hneg)
    rw [nearest_zero, ← hstep] at hle
    exact absurd hs (not_lt.2 hle)
  have hclose : |d / n - s| ≤ s / 2 ^ 52 := by
    rw [abs_sub_comm] at herror
    rw [abs_of_pos hshare] at herror
    have hmax : max (d / n) w ≤ max (d / n) s := max_le_max le_rfl hnormal
    have hscaled : |d / n - s| ≤ max (d / n) s / 2 ^ 53 := herror.trans (by gcongr)
    rcases le_total (d / n) s with hle | hge
    · rw [max_eq_right hle] at hscaled
      linarith
    · rw [max_eq_left hge, abs_of_nonneg (sub_nonneg.2 hge)] at hscaled
      rw [abs_of_nonneg (sub_nonneg.2 hge)]
      linarith
  have hscale : d / s - n = (d / n - s) * (n / s) := by
    field_simp
  rw [hscale, abs_mul, abs_of_pos (div_pos hn hs)]
  calc |d / n - s| * (n / s) ≤ s / 2 ^ 52 * (n / s) := by gcongr
    _ = n / 2 ^ 52 := by field_simp

/-- So does the quotient after it was rounded. -/
theorem abs_quotient_sub_le {d n s : ℚ} (hn : 1 ≤ n) (hclose : |d / s - n| ≤ n / 2 ^ 52) :
    |nearest (d / s) - n| ≤ n / 2 ^ 51 := by
  have herror := abs_nearest_sub_le (d / s)
  have hleast : (2 : ℚ) ^ (-1022 : ℤ) ≤ 2 ^ (-1 : ℤ) := zpow_le_zpow_right₀ one_le_two (by norm_num)
  generalize (2 : ℚ) ^ (-1022 : ℤ) = w at *
  rw [zpow_neg_one] at hleast
  rw [abs_le] at hclose
  have hpos : 0 ≤ d / s := by linarith [hclose.1]
  rw [abs_of_nonneg hpos] at herror
  have hmax : max (d / s) w ≤ 2 * n := max_le (by linarith [hclose.2]) (by linarith)
  have hscaled : |nearest (d / s) - d / s| ≤ 2 * n / 2 ^ 53 := herror.trans (by gcongr)
  rw [abs_le] at hscaled ⊢
  constructor <;> linarith [hclose.1, hclose.2, hscaled.1, hscaled.2]

/-- the least normal double, `2 ^ -1022` -/
def leastNormal : Float := Float.ofBits 0x0010000000000000

theorem leastNormal_value : leastNormal.isFinite = true ∧ value leastNormal = 2 ^ (-1022 : ℤ) := by
  obtain ⟨hfinite, hvalue⟩ := value_of_unpack (x := leastNormal) (m := 2 ^ 52) (e := -1074) (by decide) rfl
  refine ⟨hfinite, hvalue.trans ?_⟩
  rw [Nat.cast_pow, Nat.cast_two, ← zpow_natCast, ← zpow_add₀ two_ne_zero]
  norm_num

/-- An interval is split into a step that is the rounded share of its width. -/
theorem split?_eq_some {start stop : Float} {n : ℕ} {r : SampleRange} (h : SampleRange.split? start stop n = some r) :
    0 < n ∧ SampleRange.make? r.start r.stop r.step = some r ∧ r.step = width r / Float.ofNat n ∧
      r.start = start ∧ r.stop = stop := by
  unfold SampleRange.split? at h
  split at h
  · cases h
  · next hnonempty =>
    obtain ⟨rfl, -⟩ := make?_eq_some h
    exact ⟨Nat.pos_of_ne_zero fun hzero => hnonempty (Or.inl hzero), h, rfl, rfl, rfl⟩

/-- **Equal steps** of normal size are as many as were asked for. -/
theorem split_count {start stop : Float} {n : ℕ} {r : SampleRange} (h : SampleRange.split? start stop n = some r)
    (hnormal : leastNormal ≤ r.step) : r.pointCount = n + 1 := by
  obtain ⟨hn, hmake, hstep, -⟩ := split?_eq_some h
  have hr := reckoned hmake
  have hnormal' := (le_iff_value leastNormal_value.1 hr.step).1 hnormal
  rw [leastNormal_value.2] at hnormal'
  -- an infinite number of steps would make the step zero
  obtain ⟨hnfinite, hnvalue⟩ := ((ofNat_computes n).finite_or_top (Nat.cast_nonneg n)).resolve_right fun htop => by
    have hzero := div_top hr.width_finite htop
    rw [← hstep] at hzero
    exact hr.positive.ne' hzero
  have hone : 1 ≤ value (Float.ofNat n) := by
    rw [hnvalue]
    exact le_nearest (by exact_mod_cast onGrid_natCast (n := 1) (by norm_num)) (by exact_mod_cast hn)
  have hstepvalue : value r.step = nearest (value (width r) / value (Float.ofNat n)) := by
    have hcomputes := div_computes hr.width_finite hnfinite (lt_of_lt_of_le one_pos hone).ne'
    rw [← hstep] at hcomputes
    exact hcomputes.value_eq hr.step
  have hclose := abs_quotient_sub_le hone (abs_div_step_sub_le (lt_of_lt_of_le one_pos hone) hstepvalue hnormal')
  rw [← hr.quotient_value, abs_le] at hclose
  have hlt := hr.quotient_lt
  have hfew : n ≤ 1000000 := by
    by_contra hmany
    have hlarge : ((1000001 : ℕ) : ℚ) ≤ nearest n :=
      le_nearest (onGrid_natCast (by norm_num)) (by exact_mod_cast not_le.1 hmany)
    rw [← hnvalue] at hlarge
    push_cast at hlarge
    linarith [hclose.1]
  rw [(ofNat_value (hfew.trans (by norm_num))).2] at hclose
  have hfew' : (n : ℚ) ≤ 1000000 := by exact_mod_cast hfew
  -- the errors together are less than the tolerance
  have hlow : (n : ℚ) ≤ nearest (value (quotient r) + value 1e-9) := by
    refine le_nearest (onGrid_natCast (hfew.trans (by norm_num))) ?_
    rw [tolerance_value.2]
    linarith [hclose.1]
  have hhigh : nearest (value (quotient r) + value 1e-9) ≤ n + 1 / 2 := by
    refine nearest_le (by exact_mod_cast onGrid_half (n := n) (by rw [abs_lt]; constructor <;> omega)) ?_
    rw [tolerance_value.2]
    linarith [hclose.2]
  obtain ⟨-, hvalue, hnonneg, -⟩ := tolerated hr
  rw [← hvalue] at hlow hhigh
  rw [pointCount_eq hr, (Nat.floor_eq_iff hnonneg).2 ⟨hlow, by linarith⟩]

/-! ## The theorem -/

/-- **Ranges have the points that they should, almost.** An admitted range has at most one point more than the limit,
and has this one exactly if its quotient reaches the brim. An interval that is split into equal steps has one point more
than steps exactly if the quotient with its tolerance lies between their number and the next, and always if the steps
are of normal size. -/
theorem points_counted (start stop : Float) (r : SampleRange) :
    (∀ step : Float, SampleRange.make? start stop step = some r →
      r.pointCount ≤ SampleRange.pointLimit + 1 ∧
        (r.pointCount = SampleRange.pointLimit + 1 ↔ brim ≤ (stop - start) / step)) ∧
    (∀ n : ℕ, SampleRange.split? start stop n = some r →
      (r.pointCount = n + 1 ↔ Float.ofNat n ≤ (stop - start) / r.step + 1e-9 ∧
        (stop - start) / r.step + 1e-9 < Float.ofNat (n + 1)) ∧
      (leastNormal ≤ r.step → r.pointCount = n + 1)) := by
  constructor
  · intro step h
    obtain ⟨rfl, -⟩ := make?_eq_some h
    exact ⟨count_le (reckoned h), count_full (reckoned h)⟩
  · intro n h
    obtain ⟨-, hmake, -, rfl, rfl⟩ := split?_eq_some h
    exact ⟨count_iff (reckoned hmake) n, split_count h⟩

/-- A range that reaches the brim, and an interval in five hundred steps. -/
theorem brim_and_hundreds :
    (⟨0.0, 999999.9999999999, 1.0⟩ : SampleRange).pointCount = 1000001 ∧
      (⟨0.0, 1.0, 0.002⟩ : SampleRange).pointCount = 501 :=
  ⟨((points_counted 0.0 999999.9999999999 _).1 1.0 rfl).2.2 (by decide),
    ((points_counted 0.0 1.0 _).2 500 rfl).2 (by decide)⟩

/-- **The limit is exceeded**, and steps below the normal numbers are not as many as were asked for. -/
theorem limit_exceeded :
    (¬ ∀ (start stop step : Float) (r : SampleRange), SampleRange.make? start stop step = some r →
      r.pointCount ≤ SampleRange.pointLimit) ∧
    (¬ ∀ (start stop : Float) (n : ℕ) (r : SampleRange), SampleRange.split? start stop n = some r →
      r.pointCount = n + 1) := by
  constructor
  · intro h
    exact absurd (h 0.0 999999.9999999999 1.0 ⟨0.0, 999999.9999999999, 1.0⟩ rfl) (by decide)
  · intro h
    -- a third of two least steps is one least step, which goes into the interval twice only
    exact absurd (h 0.0 (Float.ofBits 2) 3 ⟨0.0, Float.ofBits 2, Float.ofBits 1⟩ rfl) (by decide)

end CurveScript.Counting
