/-
Where the points of a range lie.

A point is the start and a whole number of steps, which are rounded before they are added and again after it. The start
is the first point, and since rounding is monotone the points never decrease. The tolerance of the count lets the last
point pass the end of the interval, by a few billionths of a step; all the others lie before it. Points of a step far
below the last place of the bounds fall together, and from `2 ^ -51` of the larger bound on they do not.

All this is said of rational numbers first: `travel` and `spot` are what the rounded steps and the rounded point come to,
and `point_lands` says when the doubles are these numbers.

Results:
- `counted_steps_le`: the steps that are counted, against the width.
- `point_lands`: the doubles.
- `point_mono`, `point_strict`, `start_le_point`, `inner_le_stop`, `spot_le`, `point_isFinite_of_half`: where they lie.
- `plot_calls`: a graph is called with its points only, in whatever order they are worked on.
- `points_between`: the theorem.
Witness: `tenths_between`. Refutation: `point_past_end`.
-/
import CurveScript.Proofs.Counting
import CurveScript.Proofs.Transparency

namespace CurveScript.Sampling

open CurveScript.Rounding CurveScript.Doubles CurveScript.Operations CurveScript.Counting

/-! ## Steps and the width -/

section Steps

variable {r : SampleRange} (h : Reckoned r)

include h

theorem width_nonneg : 0 ≤ value r.stop - value r.start := sub_nonneg.2 h.order

/-- The share of the step in the width is bounded, as its rounded value is. -/
theorem share_error : |value (quotient r) - value (width r) / value r.step| ≤ 1000002 / 2 ^ 53 ∧
    value (width r) / value r.step ≤ 1000001 := by
  have hnonneg : 0 ≤ value (width r) / value r.step := by
    rw [h.width_value]
    exact div_nonneg (nearest_nonneg (width_nonneg h)) h.positive.le
  have herror := abs_nearest_sub_le (value (width r) / value r.step)
  have hleast : (2 : ℚ) ^ (-1022 : ℤ) ≤ 2 ^ (0 : ℤ) := zpow_le_zpow_right₀ one_le_two (by norm_num)
  generalize (2 : ℚ) ^ (-1022 : ℤ) = w at *
  rw [zpow_zero] at hleast
  rw [← h.quotient_value, abs_of_nonneg hnonneg] at herror
  have hmax : max (value (width r) / value r.step) w ≤ value (width r) / value r.step + 1 :=
    max_le (by linarith) (by linarith)
  have hscaled := herror.trans (div_le_div_of_nonneg_right hmax (by positivity : (0 : ℚ) ≤ 2 ^ 53))
  have hbounds := abs_le.1 hscaled
  have hlt := h.quotient_lt
  have hshare : value (width r) / value r.step ≤ 1000001 := by linarith [hbounds.1]
  exact ⟨hscaled.trans (by linarith), hshare⟩

/-- **The steps that are counted** go past the width by little more than the tolerance. -/
theorem counted_steps_le : value (quotient r + 1e-9) * value r.step ≤
    value r.stop - value r.start + 14 / 10 ^ 10 * value r.step := by
  obtain ⟨-, hvalue, -, -⟩ := tolerated h
  obtain ⟨hshare, hbound⟩ := share_error h
  have hpos := h.positive
  have hwidth := nearest_between ((value_onGrid r.stop).multiple.sub (value_onGrid r.start).multiple) (width_nonneg h)
  have hquotient := h.quotient_lt
  have hnonneg := quotient_nonneg h
  have hsum := nearest_between ((value_onGrid (quotient r)).multiple.add (value_onGrid 1e-9).multiple) (by
    rw [tolerance_value.2]
    positivity)
  rw [← hvalue, tolerance_value.2] at hsum
  rw [← h.width_value] at hwidth
  have hsteps : value (quotient r + 1e-9) ≤ value (width r) / value r.step + 1223 / 10 ^ 12 := by
    linarith [hsum.2, (abs_le.1 hshare).2]
  have hwidthsteps : value (width r) / value r.step * value r.step = value (width r) :=
    div_mul_cancel₀ _ hpos.ne'
  have hwidthbound : value (width r) ≤ 1000001 * value r.step := by
    rw [← hwidthsteps]
    exact mul_le_mul_of_nonneg_right hbound hpos.le
  calc value (quotient r + 1e-9) * value r.step
      ≤ (value (width r) / value r.step + 1223 / 10 ^ 12) * value r.step := mul_le_mul_of_nonneg_right hsteps hpos.le
    _ = value (width r) + 1223 / 10 ^ 12 * value r.step := by rw [add_mul, hwidthsteps]
    _ ≤ value r.stop - value r.start + 14 / 10 ^ 10 * value r.step := by linarith [hwidth.1, hwidth.2]

end Steps

/-! ## Points as numbers -/

/-- the rounded steps before a point -/
def travel (r : SampleRange) (i : ℕ) : ℚ := nearest (i * value r.step)

/-- the rounded point -/
def spot (r : SampleRange) (i : ℕ) : ℚ := nearest (value r.start + travel r i)

theorem travel_zero (r : SampleRange) : travel r 0 = 0 := by
  rw [travel, Nat.cast_zero, zero_mul, nearest_zero]

theorem spot_zero (r : SampleRange) : spot r 0 = value r.start := by
  rw [spot, travel_zero, add_zero, nearest_eq_self (value_onGrid r.start)]

section Spots

variable {r : SampleRange} (h : Reckoned r) {i j : ℕ}

include h

theorem travel_nonneg (i : ℕ) : 0 ≤ travel r i := nearest_nonneg (mul_nonneg (Nat.cast_nonneg i) h.positive.le)

theorem travel_mono (hij : i ≤ j) : travel r i ≤ travel r j :=
  nearest_mono (mul_le_mul_of_nonneg_right (Nat.cast_le.2 hij) h.positive.le)

/-- The steps before a point are counted. -/
theorem index_le (hi : i < r.pointCount) : (i : ℚ) ≤ value (quotient r + 1e-9) ∧ (i : ℚ) ≤ 1000000 := by
  obtain ⟨-, -, hnonneg, -⟩ := tolerated h
  have hle := count_le h
  unfold SampleRange.pointLimit at hle
  rw [pointCount_eq h] at hi
  exact ⟨(Nat.le_floor_iff hnonneg).1 (Nat.lt_succ_iff.1 hi), by
    rw [pointCount_eq h] at hle
    exact_mod_cast (by omega : i ≤ 1000000)⟩

/-- The steps before a point are little more than the width. -/
theorem steps_le (hi : i < r.pointCount) :
    i * value r.step ≤ value r.stop - value r.start + 14 / 10 ^ 10 * value r.step :=
  (mul_le_mul_of_nonneg_right (index_le h hi).1 h.positive.le).trans (counted_steps_le h)

theorem abs_travel_sub_le (hi : i < r.pointCount) : |travel r i - i * value r.step| ≤ 2 / 10 ^ 10 * value r.step := by
  have herror := abs_nearest_sub_le_of_multiple ((value_onGrid r.step).multiple.natMul i)
  have hpos := h.positive
  have hsteps : i * value r.step ≤ 1000000 * value r.step := mul_le_mul_of_nonneg_right (index_le h hi).2 hpos.le
  rw [abs_of_nonneg (mul_nonneg (Nat.cast_nonneg i) hpos.le)] at herror
  exact herror.trans (by linarith)

theorem travel_le (hi : i < r.pointCount) :
    travel r i ≤ value r.stop - value r.start + 16 / 10 ^ 10 * value r.step := by
  linarith [(abs_le.1 (abs_travel_sub_le h hi)).2, steps_le h hi]

/-- **Before the last point** the steps are at most the width. -/
theorem travel_inner_le (hi : i + 1 < r.pointCount) : travel r i ≤ value r.stop - value r.start := by
  have hnext := steps_le h hi
  have hpos := h.positive
  push_cast at hnext
  linarith [(abs_le.1 (abs_travel_sub_le h (Nat.lt_of_succ_lt hi))).2]

theorem start_le_spot (i : ℕ) : value r.start ≤ spot r i :=
  le_nearest (value_onGrid r.start) (le_add_of_nonneg_right (travel_nonneg h i))

theorem spot_mono (hij : i ≤ j) : spot r i ≤ spot r j := nearest_mono (add_le_add_right (travel_mono h hij) _)

theorem spot_inner_le (hi : i + 1 < r.pointCount) : spot r i ≤ value r.stop :=
  nearest_le (value_onGrid r.stop) (by linarith [travel_inner_le h hi])

/-- **The last point** passes the end by at most a few billionths of a step: rounding may double the distance, since the
end itself is a double. -/
theorem spot_le (hi : i < r.pointCount) : spot r i ≤ value r.stop + 4 / 10 ^ 9 * value r.step := by
  have htravel := travel_le h hi
  have hpos := h.positive
  rcases le_or_gt (value r.start + travel r i) (value r.stop) with hle | hgt
  · have := nearest_le (value_onGrid r.stop) hle
    unfold spot
    linarith
  · have hnear := nearest_nearest (q := value r.start + travel r i) (value_onGrid r.stop)
    rw [abs_sub_comm (value r.stop), abs_of_pos (sub_pos.2 hgt)] at hnear
    unfold spot
    linarith [(abs_le.1 hnear).2]

/-- **Points of a step that is not too small are apart.** -/
theorem spot_strict (hstart : |value r.start| ≤ 2 ^ 51 * value r.step) (hstop : |value r.stop| ≤ 2 ^ 51 * value r.step)
    (hij : i < j) (hj : j < r.pointCount) : spot r i < spot r j := by
  have hpos := h.positive
  have hi := hij.trans hj
  have hsteps : (i + 1 : ℚ) * value r.step ≤ j * value r.step :=
    mul_le_mul_of_nonneg_right (by exact_mod_cast hij) hpos.le
  have hitravel := abs_le.1 (abs_travel_sub_le h hi)
  have hjtravel := abs_le.1 (abs_travel_sub_le h hj)
  have hmultiple : ∀ k, Multiple (value r.start + travel r k) := fun k =>
    (value_onGrid r.start).multiple.add (nearest_onGrid _).multiple
  have hsize : ∀ k, k < r.pointCount → |value r.start + travel r k| ≤ (2 ^ 51 + 1) * value r.step := by
    intro k hk
    have htravel := travel_le h hk
    have hnonneg := travel_nonneg h k
    rw [abs_le] at hstart hstop ⊢
    constructor <;> linarith [hstart.1, hstop.2]
  have hispot := abs_le.1 ((abs_nearest_sub_le_of_multiple (hmultiple i)).trans
    (div_le_div_of_nonneg_right (hsize i hi) (by positivity)))
  have hjspot := abs_le.1 ((abs_nearest_sub_le_of_multiple (hmultiple j)).trans
    (div_le_div_of_nonneg_right (hsize j hj) (by positivity)))
  unfold spot
  linarith [hispot.2, hjspot.1, hitravel.2, hjtravel.1]

end Spots

/-! ## Points as doubles -/

theorem pointCount_succ {r : SampleRange} (h : Reckoned r) : ∃ k, r.pointCount = k + 1 := ⟨_, pointCount_eq h⟩

theorem pointCount_pos {r : SampleRange} (h : Reckoned r) : 0 < r.pointCount := by
  obtain ⟨k, hk⟩ := pointCount_succ h
  exact hk ▸ Nat.succ_pos k

section Points

variable {r : SampleRange} (h : Reckoned r) {i j : ℕ}

include h

/-- **The doubles.** If the steps are too large, the point is infinite. -/
theorem point_lands (hi : i < r.pointCount) :
    (travel r i < ceiling ∧ Computes (r.point i) (value r.start + travel r i)) ∨
      (ceiling ≤ travel r i ∧ (r.point i).isNaN = false ∧ level (r.point i) = ⊤) := by
  have hfew : i ≤ 2 ^ 53 := by
    have : i ≤ 1000000 := by exact_mod_cast (index_le h hi).2
    exact this.trans (by norm_num)
  obtain ⟨hfinite, hvalue⟩ := ofNat_value hfew
  have hproduct := mul_computes hfinite h.step
  rw [hvalue] at hproduct
  rcases lt_or_ge (travel r i) ceiling with hlt | hge
  · obtain ⟨hpfinite, hpvalue⟩ := hproduct.finite_of_nonneg (mul_nonneg (Nat.cast_nonneg i) h.positive.le) hlt
    have hsum := add_computes h.start hpfinite
    rw [hpvalue] at hsum
    exact Or.inl ⟨hlt, hsum⟩
  · exact Or.inr ⟨hge, add_top h.start (hproduct.top_of_le hge)⟩

theorem point_number (hi : i < r.pointCount) : (r.point i).isNaN = false := by
  rcases point_lands h hi with ⟨-, hcomputes⟩ | ⟨-, hnumber, -⟩
  · exact hcomputes.number
  · exact hnumber

/-- A finite point is its number. -/
theorem point_value (hi : i < r.pointCount) (hfinite : (r.point i).isFinite = true) : value (r.point i) = spot r i := by
  rcases point_lands h hi with ⟨-, hcomputes⟩ | ⟨-, -, htop⟩
  · exact hcomputes.value_eq hfinite
  · rw [level_of_isFinite hfinite] at htop
    exact absurd (coe_lt_top _) htop.not_lt

/-- A point whose number is small enough is finite. -/
theorem point_isFinite (hi : i < r.pointCount) (htravel : travel r i < ceiling) (hspot : spot r i < ceiling) :
    (r.point i).isFinite = true := by
  rcases point_lands h hi with ⟨-, hcomputes⟩ | ⟨hge, -⟩
  · refine (hcomputes.finite ?_).1
    have hlow := start_le_spot h i
    have hstart := (abs_lt.1 (abs_value_lt r.start)).1
    exact abs_lt.2 ⟨hstart.trans_le hlow, hspot⟩
  · exact absurd htravel (not_lt.2 hge)

theorem point_finite_or_top (hi : i < r.pointCount) : (r.point i).isFinite = true ∨ level (r.point i) = ⊤ := by
  rcases point_lands h hi with ⟨hlt, hcomputes⟩ | ⟨-, -, htop⟩
  · exact (lt_or_ge (spot r i) ceiling).imp (point_isFinite h hi hlt) hcomputes.top_of_le
  · exact Or.inr htop

/-- **Before the last point** all points are finite. -/
theorem inner_isFinite (hi : i + 1 < r.pointCount) : (r.point i).isFinite = true := by
  refine point_isFinite h (Nat.lt_of_succ_lt hi) ?_ ((spot_inner_le h hi).trans_lt (abs_lt.1 (abs_value_lt _)).2)
  have hwidth : travel r i ≤ value (width r) := by
    rw [h.width_value]
    exact le_nearest (nearest_onGrid _) (travel_inner_le h hi)
  exact hwidth.trans_lt (abs_lt.1 (abs_value_lt _)).2

/-- **Points never decrease.** -/
theorem point_mono (hij : i ≤ j) (hj : j < r.pointCount) : r.point i ≤ r.point j := by
  rcases hij.eq_or_lt with rfl | hlt
  · exact (le_iff (point_number h hj) (point_number h hj)).2 le_rfl
  · have hi := hlt.trans hj
    have hfinite := inner_isFinite h (lt_of_le_of_lt hlt hj)
    rcases point_finite_or_top h hj with hjfinite | htop
    · rw [le_iff_value hfinite hjfinite, point_value h hi hfinite, point_value h hj hjfinite]
      exact spot_mono h hij
    · rw [le_iff (point_number h hi) (point_number h hj), htop]
      exact le_top

theorem first_isFinite : (r.point 0).isFinite = true := by
  refine point_isFinite h (pointCount_pos h) ?_ ?_
  · rw [travel_zero]
    exact ceiling_pos
  · rw [spot_zero]
    exact (abs_lt.1 (abs_value_lt _)).2

/-- **The first point** is the start. -/
theorem first_eq_start : (r.point 0 == r.start) = true := by
  have hvalue := point_value h (pointCount_pos h) (first_isFinite h)
  rw [beq_iff (isNaN_of_isFinite (first_isFinite h)) (isNaN_of_isFinite h.start), level_of_isFinite (first_isFinite h),
    level_of_isFinite h.start, hvalue, spot_zero]

/-- No point is below the start. -/
theorem start_le_point (hi : i < r.pointCount) : r.start ≤ r.point i := by
  have hnumber := isNaN_of_isFinite (first_isFinite h)
  have hfirst := (beq_iff hnumber (isNaN_of_isFinite h.start)).1 (first_eq_start h)
  rw [le_iff (isNaN_of_isFinite h.start) (point_number h hi), ← hfirst, ← le_iff hnumber (point_number h hi)]
  exact point_mono h (Nat.zero_le i) hi

/-- No point but the last is beyond the end. -/
theorem inner_le_stop (hi : i + 1 < r.pointCount) : r.point i ≤ r.stop := by
  have hfinite := inner_isFinite h hi
  rw [le_iff_value hfinite h.stop, point_value h (Nat.lt_of_succ_lt hi) hfinite]
  exact spot_inner_le h hi

/-- Points of a step that is not too small increase. -/
theorem point_strict (hstart : |value r.start| ≤ 2 ^ 51 * value r.step) (hstop : |value r.stop| ≤ 2 ^ 51 * value r.step)
    (hij : i < j) (hj : j < r.pointCount) : r.point i < r.point j := by
  have hi := hij.trans hj
  have hfinite := inner_isFinite h (lt_of_le_of_lt hij hj)
  rcases point_finite_or_top h hj with hjfinite | htop
  · rw [lt_iff_value hfinite hjfinite, point_value h hi hfinite, point_value h hj hjfinite]
    exact spot_strict h hstart hstop hij hj
  · rw [lt_iff (point_number h hi) (point_number h hj), level_of_isFinite hfinite, htop]
    exact coe_lt_top _

/-- The last point, too, is finite where neither the end nor the width is near the largest double. -/
theorem point_isFinite_of_half (hstop : 2 * value r.stop ≤ ceiling)
    (hwidth : 2 * (value r.stop - value r.start) ≤ ceiling) (hi : i < r.pointCount) : (r.point i).isFinite = true := by
  rcases Nat.eq_zero_or_pos i with rfl | hpos
  · exact first_isFinite h
  · have hstep : value r.step ≤ i * value r.step := by
      have : (1 : ℚ) ≤ i := by exact_mod_cast hpos
      exact le_mul_of_one_le_left h.positive.le this
    have hsteps := steps_le h hi
    have htravel := travel_le h hi
    have hspot := spot_le h hi
    have hceiling := ceiling_pos
    exact point_isFinite h hi (by linarith) (by linarith)

end Points

/-! ## All points -/

theorem exists_of_mem_points {r : SampleRange} {x : Float} (hx : x ∈ r.points) :
    ∃ i, i < r.pointCount ∧ x = r.point i := by
  unfold SampleRange.points at hx
  obtain ⟨i, hi, rfl⟩ := List.mem_map.1 hx
  exact ⟨i, List.mem_range.1 hi, rfl⟩

/-- The points before the last one. -/
theorem exists_of_mem_dropLast {r : SampleRange} (h : Reckoned r) {x : Float} (hx : x ∈ r.points.dropLast) :
    ∃ i, i + 1 < r.pointCount ∧ x = r.point i := by
  obtain ⟨k, hk⟩ := pointCount_succ h
  unfold SampleRange.points at hx
  rw [hk, List.range_succ, List.map_append, List.map_singleton, List.dropLast_concat] at hx
  obtain ⟨i, hi, rfl⟩ := List.mem_map.1 hx
  exact ⟨i, by rw [hk]; exact Nat.succ_lt_succ (List.mem_range.1 hi), rfl⟩

theorem points_eq_cons {r : SampleRange} (h : Reckoned r) : ∃ rest, r.points = r.point 0 :: rest := by
  obtain ⟨k, hk⟩ := pointCount_succ h
  unfold SampleRange.points
  rw [hk, List.range_succ_eq_map, List.map_cons]
  exact ⟨_, rfl⟩

/-- What holds of any two points in order. -/
theorem pairwise_points {r : SampleRange} {R : Float → Float → Prop}
    (h : ∀ i j, i < j → j < r.pointCount → R (r.point i) (r.point j)) : r.points.Pairwise R := by
  unfold SampleRange.points
  rw [List.pairwise_map]
  exact List.pairwise_lt_range.imp_of_mem fun _ hj hij => h _ _ hij (List.mem_range.1 hj)

/-! ## Sampling a plotted graph -/

/-- A graph plotted over bounds with a step has the range that they make. -/
theorem plot_range {f low high size : Value} {start stop step : Float} (hlow : low.number? = some start)
    (hhigh : high.number? = some stop) (hsize : size.number? = some step) {g : Graph}
    (hplot : Builtin.plot.call [f, low, high, size] = .ok (.graph g)) {r : SampleRange}
    (hr : SampleRange.make? start stop step = some r) : g.ownRange = some r := by
  have hrange : Builtin.plotRange [f, low, high, size] = .ok (some r) := by
    unfold Builtin.plotRange Builtin.number
    simp [hlow, hhigh, hsize, hr]
  change Builtin.plotFunction [f, low, high, size] = _ at hplot
  unfold Builtin.plotFunction at hplot
  simp only [hrange] at hplot
  split at hplot
  · cases hplot
  · split at hplot
    · cases hplot
      rfl
    · cases hplot

open Transparency in
/-- **A plotted graph is called with its points only**: with one number no more often than it is among them. -/
theorem plot_calls {g : Graph} {r : SampleRange} (hr : g.ownRange = some r) (e : Engine) (schedule : List Nat) :
    ((calls e [.sample g none schedule]).map Prod.snd).Subperm (r.points.map Float.toBits) := by
  have hrange : g.resolveRange none e.config.sampling.defaultRange = r := by
    unfold Graph.resolveRange Graph.range
    rw [hr]
    rfl
  obtain ⟨chosen, hperm, hsublist⟩ := Schedules.sweep_calls .plain (e.caches.cacheFor g) schedule r.points (e.nextId, [])
  rw [calls, logged, logged, logOf_sample, hrange]
  refine ⟨chosen.map Prod.snd, hperm.map Prod.snd, ?_⟩
  have hbits := hsublist.map Prod.snd
  rwa [List.nil_append, List.map_map] at hbits

/-- Points that increase have different bit patterns. -/
theorem nodup_of_strict {r : SampleRange} (hnumber : ∀ x ∈ r.points, x.isNaN = false)
    (hstrict : r.points.Pairwise (· < ·)) : (r.points.map Float.toBits).Nodup := by
  rw [List.Nodup, List.pairwise_map]
  refine hstrict.imp_of_mem fun {x y} hx hy hlt hbits => ?_
  rw [Float.toBits_inj.1 hbits, lt_iff (hnumber y hy) (hnumber y hy)] at hlt
  exact lt_irrefl _ hlt

/-! ## The theorem -/

open Transparency in
/-- **Sampling stays inside the interval, almost.** The points of an admitted range begin with the start, never decrease,
and are not below the start. All but the last are at most the end, and the last, if it is finite, passes it by at most
four billionths of a step. It is finite where neither the end nor the width is beyond half of the numbers that doubles
reach. The points increase strictly if the step is at least the `2 ^ 51`-th part of both bounds. A graph plotted over the
range, when it is sampled, calls its function with points only, in whatever order its points are worked on, and where the
points increase, never twice with one number. -/
theorem points_between {start stop step : Float} {r : SampleRange} (h : SampleRange.make? start stop step = some r) :
    (∃ x rest, r.points = x :: rest ∧ (x == start) = true) ∧
    r.points.Pairwise (· ≤ ·) ∧
    (∀ x ∈ r.points, start ≤ x) ∧
    (∀ x ∈ r.points.dropLast, x ≤ stop) ∧
    (∀ x ∈ r.points, x.isFinite = true → value x ≤ value stop + 4 / 10 ^ 9 * value step) ∧
    (2 * value stop ≤ ceiling → 2 * (value stop - value start) ≤ ceiling → ∀ x ∈ r.points, x.isFinite = true) ∧
    (|value start| ≤ 2 ^ 51 * value step → |value stop| ≤ 2 ^ 51 * value step → r.points.Pairwise (· < ·)) ∧
    ∀ (f low high size : Value) (g : Graph) (e : Engine) (schedule : List Nat), low.number? = some start →
      high.number? = some stop → size.number? = some step →
      Builtin.plot.call [f, low, high, size] = .ok (.graph g) →
        ((calls e [.sample g none schedule]).map Prod.snd).Subperm (r.points.map Float.toBits) ∧
        (r.points.Pairwise (· < ·) → ((calls e [.sample g none schedule]).map Prod.snd).Nodup) := by
  obtain ⟨rfl, -⟩ := Graphs.make?_eq_some h
  have hr : Reckoned ⟨start, stop, step⟩ := reckoned h
  refine ⟨?_, pairwise_points fun i j hij => point_mono hr hij.le, ?_, ?_, ?_, ?_, ?_, ?_⟩
  · obtain ⟨rest, hrest⟩ := points_eq_cons hr
    exact ⟨_, rest, hrest, first_eq_start hr⟩
  · intro x hx
    obtain ⟨i, hi, rfl⟩ := exists_of_mem_points hx
    exact start_le_point hr hi
  · intro x hx
    obtain ⟨i, hi, rfl⟩ := exists_of_mem_dropLast hr hx
    exact inner_le_stop hr hi
  · intro x hx hfinite
    obtain ⟨i, hi, rfl⟩ := exists_of_mem_points hx
    rw [point_value hr hi hfinite]
    exact spot_le hr hi
  · intro hstop hwidth x hx
    obtain ⟨i, hi, rfl⟩ := exists_of_mem_points hx
    exact point_isFinite_of_half hr hstop hwidth hi
  · intro hstart hstop
    exact pairwise_points fun i j => point_strict hr hstart hstop
  · intro f low high size g e schedule hlow hhigh hsize hplot
    have hcalls := plot_calls (plot_range hlow hhigh hsize hplot h) e schedule
    refine ⟨hcalls, fun hstrict => ?_⟩
    have hnumber : ∀ x ∈ (SampleRange.mk start stop step).points, x.isNaN = false := by
      intro x hx
      obtain ⟨i, hi, rfl⟩ := exists_of_mem_points hx
      exact point_number hr hi
    obtain ⟨sorted, hperm, hsublist⟩ := hcalls
    exact hperm.nodup_iff.1 ((nodup_of_strict hnumber hstrict).sublist hsublist)

open Transparency in
/-- Three tenths in steps of a tenth, all looked up before any is called. -/
theorem tenths_between :
    (⟨0.0, 0.3, 0.1⟩ : SampleRange).points.Pairwise (· < ·) ∧
      (∀ x ∈ (⟨0.0, 0.3, 0.1⟩ : SampleRange).points, x.isFinite = true) ∧
      ((calls plainEngine [.sample ⟨square, some ⟨0.0, 0.3, 0.1⟩⟩ none [0, 1, 2, 3]]).map Prod.snd).Nodup := by
  have hthree := (value_of_unpack (x := 0.3) (m := 5404319552844595) (e := -54) (by decide) rfl).2
  have hone := (value_of_unpack (x := 0.1) (m := 7205759403792794) (e := -56) (by decide) rfl).2
  have hsmall : value 0.3 ≤ 1 / 2 := by
    rw [hthree]
    norm_num
  have hceiling : (1 : ℚ) < ceiling := lt_ceiling (by norm_num)
  have hmake : SampleRange.make? 0.0 0.3 0.1 = some ⟨0.0, 0.3, 0.1⟩ := rfl
  obtain ⟨-, -, -, -, -, hfinite, hstrict, hplot⟩ := points_between hmake
  have hincrease := hstrict (by rw [value_zero.2, hone]; norm_num) (by rw [hthree, hone]; norm_num)
  refine ⟨hincrease, hfinite (by linarith) (by rw [value_zero.2]; linarith), ?_⟩
  exact (hplot (.function square) (.float 0.0) (.float 0.3) (.float 0.1) _ plainEngine _ rfl rfl rfl rfl).2 hincrease

/-- **The last point can pass the end, and points can repeat.** -/
theorem point_past_end :
    (¬ ∀ (start stop step : Float) (r : SampleRange), SampleRange.make? start stop step = some r →
      ∀ x ∈ r.points, x ≤ stop) ∧
    (¬ ∀ (start stop step : Float) (r : SampleRange), SampleRange.make? start stop step = some r →
      r.points.Pairwise (· < ·)) := by
  constructor
  · intro h
    have hlast : (0.30000000000000004 : Float) ∈ (⟨0.0, 0.3, 0.1⟩ : SampleRange).points :=
      List.mem_map.2 ⟨3, List.mem_range.2 (by decide), rfl⟩
    exact absurd (h 0.0 0.3 0.1 _ rfl _ hlast) (by decide)
  · intro h
    exact absurd (h 1e16 10000000000000002.0 0.5 ⟨1e16, 10000000000000002.0, 0.5⟩ rfl) (by decide)

end CurveScript.Sampling
