/-
The numbers that doubles stand for.

The runtime's doubles are bit patterns that unpack to a sign, a mantissa and an exponent, or to a zero, an infinity or no
number. `value` is the rational number that a finite double stands for, and `level` adds the two infinities at the ends.
Comparisons of doubles are comparisons of their levels, so everything known of a linear order holds of doubles that are
numbers.

Results:
- `canonical_unpack`, `unpack_pack`: what a bit pattern holds, and what becomes of a number that is put into one.
- `levelOf_clip`: a number that is put into a bit pattern keeps its value, or saturates.
- `compares_scaled`, `ordered`: comparing mantissas and exponents is comparing levels.
- `lt_iff`, `le_iff`, `beq_iff`: comparisons of doubles.
- `value_onGrid`, `abs_value_lt`: finite doubles are numbers of the grid below `2 ^ 1024`.
-/
import Mathlib
import CurveScript.Proofs.Rounding

namespace CurveScript.Doubles

open Float.Model Float.Model.UnpackedFloat CurveScript.Rounding

/-! ## Bit patterns -/

/-- a mantissa and an exponent as a bit pattern holds them: 53 bits, fewer at the least exponent only -/
structure Canonical (m : ℕ) (e : ℤ) : Prop where
  lt : m < 2 ^ 53
  low : -1074 ≤ e
  normal : 2 ^ 52 ≤ m ∨ e = -1074

/-- what can be put into a bit pattern, perhaps as an infinity -/
def Regular : UnpackedFloat → Prop
  | .finite _ m e _ => Canonical m e
  | _ => True

/-- what a bit pattern keeps: from `2 ^ 1024` on, the sign only -/
def clip : UnpackedFloat → UnpackedFloat
  | .finite s m e hm => if e ≤ 971 then .finite s m e hm else .infinity s
  | f => f

theorem toNat_impliedBit (b : BitVec 52) : (1#1 ++ b).toNat = 2 ^ 52 + b.toNat := by
  rw [BitVec.toNat_append, ← Nat.shiftLeft_add_eq_or_of_lt b.isLt]
  rfl

theorem exponentBias_eq : Format.binary64.exponentBias = 1023 := rfl

/-- **A bit pattern holds a canonical number.** -/
theorem canonical_unpack {b : BitVec Format.binary64.numBits} {s : Sign} {m : ℕ} {e : ℤ} {hm : 0 < m}
    (h : UnpackedFloat.unpack Format.binary64 b = .finite s m e hm) : Canonical m e ∧ e ≤ 971 := by
  have hmantissa : (unpackMantissa b).toNat < 2 ^ 52 := (unpackMantissa b).isLt
  have hexponent : (unpackExponent b).toNat < 2 ^ 11 := (unpackExponent b).isLt
  unfold UnpackedFloat.unpack at h
  simp only [exponentBias_eq] at h
  split at h
  · split at h <;> cases h
  · next hreserved =>
    have hlast : (unpackExponent b).toNat ≠ 2047 := fun heq => hreserved (BitVec.eq_of_toNat_eq heq)
    split at h
    · next hzero =>
      split at h
      · cases h
      · cases h
        rw [hzero]
        exact ⟨⟨by omega, by simp, Or.inr (by simp)⟩, by simp⟩
    · next hzero =>
      have hfirst : (unpackExponent b).toNat ≠ 0 := fun heq => hzero (BitVec.eq_of_toNat_eq heq)
      cases h
      rw [toNat_impliedBit]
      exact ⟨⟨by omega, by omega, Or.inl (by omega)⟩, by omega⟩

theorem unpack_normal {s : Sign} {m : ℕ} {e : ℤ} {hm : 0 < m} (h : Canonical m e) (hfull : 2 ^ 52 ≤ m)
    (hfits : e ≤ 971) : UnpackedFloat.unpack Format.binary64 (packComponents Format.binary64 s
      (BitVec.ofNat 11 (e + 1075).toNat) (BitVec.ofNat 52 m)) = .finite s m e hm := by
  obtain ⟨hlt, hlow, -⟩ := h
  have hexponent : (BitVec.ofNat 11 (e + 1075).toNat).toNat = (e + 1075).toNat := by
    rw [BitVec.toNat_ofNat, Nat.mod_eq_of_lt (by omega)]
  have hmantissa : (1#1 ++ BitVec.ofNat 52 m).toNat = m := by
    rw [toNat_impliedBit, BitVec.toNat_ofNat]
    omega
  have hreserved : BitVec.ofNat 11 (e + 1075).toNat ≠ -1#11 := by
    intro heq
    have heq' : (e + 1075).toNat = 2047 := hexponent.symm.trans (congrArg BitVec.toNat heq)
    omega
  have hzero : BitVec.ofNat 11 (e + 1075).toNat ≠ 0#11 := by
    intro heq
    have heq' : (e + 1075).toNat = 0 := hexponent.symm.trans (congrArg BitVec.toNat heq)
    omega
  rw [UnpackedFloat.unpack]
  simp only [unpackSign_packComponents, unpackExponent_packComponents, unpackMantissa_packComponents,
    Sign.ofBitVec_toBitVec, if_neg hreserved, if_neg hzero, hmantissa, hexponent, exponentBias_eq]
  congr 1
  omega

theorem unpack_subnormal {s : Sign} {m : ℕ} {hm : 0 < m} (hlt : m < 2 ^ 52) :
    UnpackedFloat.unpack Format.binary64 (packComponents Format.binary64 s 0#11 (BitVec.ofNat 52 m)) =
      .finite s m (-1074) hm := by
  have hmantissa : (BitVec.ofNat 52 m).toNat = m := by rw [BitVec.toNat_ofNat, Nat.mod_eq_of_lt hlt]
  have hzero : BitVec.ofNat 52 m ≠ 0#52 := by
    intro heq
    have heq' : m = 0 := hmantissa.symm.trans (congrArg BitVec.toNat heq)
    omega
  have hreserved : ¬ 0#11 = -1#11 := by decide
  rw [UnpackedFloat.unpack]
  simp only [unpackSign_packComponents, unpackExponent_packComponents, unpackMantissa_packComponents,
    Sign.ofBitVec_toBitVec, if_neg hreserved, if_true, dif_neg hzero, hmantissa, exponentBias_eq]
  rfl

/-- **What is put into a bit pattern** comes out of it, but for the numbers that are too large. -/
theorem unpack_pack {f : UnpackedFloat} (h : Regular f) : (Float.Model.pack f).unpack = clip f := by
  cases f with
  | notANumber => rfl
  | infinity s => cases s <;> rfl
  | zero s => cases s <;> rfl
  | finite s m e hm =>
    have hlow := h.low
    change UnpackedFloat.unpack Format.binary64 (UnpackedFloat.pack Format.binary64 (.finite s m e hm)) = _
    have hbiased : (e + Format.binary64.exponentBias + Format.binary64.mantissaBitsWithoutImplicit).toNat =
        (e + 1075).toNat := by
      change (e + 1023 + 52).toNat = _
      congr 1
      omega
    rw [UnpackedFloat.pack, clip]
    simp only [hbiased]
    by_cases hfits : e ≤ 971
    · have hover : ¬ 2 ^ 11 ≤ (e + 1075).toNat + 1 := by omega
      rw [if_neg hover, if_pos hfits]
      by_cases hfull : 2 ^ 52 ≤ m
      · have hlog : m.log2 + 1 = Format.binary64.mantissaBits := by
          rw [(Nat.log2_eq_iff hm.ne').2 ⟨hfull, h.lt⟩]
          rfl
        rw [if_pos hlog]
        exact unpack_normal h hfull hfits
      · have hlog : ¬ m.log2 + 1 = Format.binary64.mantissaBits := by
          have : m.log2 < 52 := (Nat.log2_lt hm.ne').2 (by omega)
          change ¬ m.log2 + 1 = 53
          omega
        rw [if_neg hlog]
        obtain rfl : e = -1074 := h.normal.resolve_left hfull
        exact unpack_subnormal (by omega)
    · have hover : 2 ^ 11 ≤ (e + 1075).toNat + 1 := by omega
      rw [if_pos hover, if_neg hfits]
      cases s <;> rfl

/-! ## Values and levels -/

/-- the rational numbers with two infinities -/
abbrev Level : Type := WithBot (WithTop ℚ)

/-- the number of an unpacked double, zero if there is none -/
def valueOf : UnpackedFloat → ℚ
  | .finite s m e _ => s.apply m * 2 ^ e
  | _ => 0

/-- the number of an unpacked double, or the infinity that it is -/
def levelOf : UnpackedFloat → Level
  | .infinity .positive => ⊤
  | .infinity .negative => ⊥
  | f => ((valueOf f : WithTop ℚ) : Level)

/-- the number that a finite double stands for -/
def value (x : Float) : ℚ := valueOf x.toModel.unpack

/-- the number that a double stands for, or the infinity that it is -/
def level (x : Float) : Level := levelOf x.toModel.unpack

theorem valueOf_positive {m : ℕ} {e : ℤ} {hm : 0 < m} : valueOf (.finite .positive m e hm) = m * 2 ^ e := rfl

theorem valueOf_negative {m : ℕ} {e : ℤ} {hm : 0 < m} : valueOf (.finite .negative m e hm) = -(m * 2 ^ e) := by
  rw [valueOf, Sign.apply, Int.cast_neg, Int.cast_natCast, neg_mul]

/-- A finite number is a zero, or has a mantissa. -/
theorem finite_cases {f : UnpackedFloat} (h : f.isFinite = true) :
    (∃ s, f = .zero s) ∨ ∃ s m e hm, f = .finite s m e hm := by
  cases f with
  | infinity s => cases h
  | notANumber => cases h
  | zero s => exact Or.inl ⟨s, rfl⟩
  | finite s m e hm => exact Or.inr ⟨s, m, e, hm, rfl⟩

theorem levelOf_of_isFinite {f : UnpackedFloat} (h : f.isFinite = true) :
    levelOf f = ((valueOf f : WithTop ℚ) : Level) := by
  rcases finite_cases h with ⟨s, rfl⟩ | ⟨s, m, e, hm, rfl⟩ <;> rfl

theorem level_of_isFinite {x : Float} (h : x.isFinite = true) : level x = ((value x : WithTop ℚ) : Level) :=
  levelOf_of_isFinite h

theorem isNaN_of_isFinite {x : Float} (h : x.isFinite = true) : x.isNaN = false := by
  change x.toModel.unpack.isNaN = false
  rcases finite_cases h with ⟨s, hs⟩ | ⟨s, m, e, hm, hs⟩ <;> rw [hs] <;> rfl

theorem value_of_unpack {x : Float} {m : ℕ} {e : ℤ} (hm : 0 < m)
    (h : x.toModel.unpack = .finite .positive m e hm) : x.isFinite = true ∧ value x = m * 2 ^ e := by
  constructor
  · change x.toModel.unpack.isFinite = true
    rw [h]
    rfl
  · rw [value, h, valueOf_positive]

/-- A double that is a number and no infinity is finite. -/
theorem isFinite_of_level {x : Float} (hnan : x.isNaN = false) {q : ℚ} (h : level x = ((q : WithTop ℚ) : Level)) :
    x.isFinite = true ∧ value x = q := by
  unfold level at h
  change x.toModel.unpack.isNaN = false at hnan
  change x.toModel.unpack.isFinite = true ∧ valueOf x.toModel.unpack = q
  cases hx : x.toModel.unpack with
  | notANumber => rw [hx] at hnan; cases hnan
  | infinity s => rw [hx] at h; cases s <;> cases h
  | zero s =>
    rw [hx] at h
    exact ⟨rfl, WithTop.coe_injective (WithBot.coe_injective h)⟩
  | finite s m e hm =>
    rw [hx] at h
    exact ⟨rfl, WithTop.coe_injective (WithBot.coe_injective h)⟩

theorem regular_unpack (x : Float) : Regular x.toModel.unpack := by
  cases hx : x.toModel.unpack with
  | finite s m e hm => exact (canonical_unpack hx).1
  | _ => trivial

/-! ## Saturation -/

/-- the power of two right above the largest double -/
def ceiling : ℚ := 2 ^ 1024

theorem ceiling_eq : ceiling = 2 ^ (1024 : ℤ) := rfl

theorem ceiling_pos : 0 < ceiling := by
  rw [ceiling_eq]
  exact zpow_pos two_pos _

theorem lt_ceiling {q : ℚ} (h : q ≤ 2 ^ (64 : ℤ)) : q < ceiling := by
  rw [ceiling_eq]
  exact h.trans_lt (zpow_lt_zpow_right₀ one_lt_two (by norm_num))

/-- a number as a level, or an infinity if no double is as large -/
def saturate (q : ℚ) : Level :=
  if ceiling ≤ q then ⊤ else if q ≤ -ceiling then ⊥ else ((q : WithTop ℚ) : Level)

theorem saturate_of_lt {q : ℚ} (h : |q| < ceiling) : saturate q = ((q : WithTop ℚ) : Level) := by
  rw [abs_lt] at h
  rw [saturate, if_neg (not_le.2 h.2), if_neg (not_le.2 h.1)]

theorem saturate_mono {p q : ℚ} (h : p ≤ q) : saturate p ≤ saturate q := by
  unfold saturate
  split
  · next hp => rw [if_pos (hp.trans h)]
  · split
    · exact bot_le
    · next hp =>
      split
      · exact le_top
      · rw [if_neg fun hq => hp (h.trans hq)]
        exact WithBot.coe_le_coe.2 (WithTop.coe_le_coe.2 h)

theorem Canonical.scaled_lt {m : ℕ} {e : ℤ} (h : Canonical m e) : (m : ℚ) * 2 ^ e < 2 ^ (e + 53) := by
  have hlt : (m : ℚ) < 2 ^ 53 := by exact_mod_cast h.lt
  rw [zpow_add₀ two_ne_zero, mul_comm]
  exact mul_lt_mul_of_pos_left hlt (zpow_pos two_pos e)

theorem Canonical.le_scaled {m : ℕ} {e : ℤ} (h : Canonical m e) (he : -1074 < e) : 2 ^ (e + 52) ≤ (m : ℚ) * 2 ^ e := by
  have hle : (2 : ℚ) ^ 52 ≤ m := by exact_mod_cast h.normal.resolve_right he.ne'
  rw [zpow_add₀ two_ne_zero, mul_comm]
  exact mul_le_mul_of_nonneg_right hle (zpow_pos two_pos e).le

theorem scaled_pos {m : ℕ} (hm : 0 < m) (e : ℤ) : (0 : ℚ) < m * 2 ^ e :=
  mul_pos (Nat.cast_pos.2 hm) (zpow_pos two_pos e)

/-- A canonical number is below the ceiling exactly if a bit pattern holds it. -/
theorem Canonical.lt_ceiling_iff {m : ℕ} {e : ℤ} (h : Canonical m e) : (m : ℚ) * 2 ^ e < ceiling ↔ e ≤ 971 := by
  constructor
  · intro hlt
    by_contra hlarge
    refine absurd hlt (not_lt.2 (le_trans ?_ (h.le_scaled (by omega))))
    rw [ceiling_eq]
    exact zpow_le_zpow_right₀ one_le_two (by omega)
  · intro hfits
    refine h.scaled_lt.trans_le ?_
    rw [ceiling_eq]
    exact zpow_le_zpow_right₀ one_le_two (by omega)

theorem abs_valueOf_finite {s : Sign} {m : ℕ} {e : ℤ} {hm : 0 < m} : |valueOf (.finite s m e hm)| = m * 2 ^ e := by
  have hpos := scaled_pos hm e
  cases s with
  | positive => rw [valueOf_positive, abs_of_pos hpos]
  | negative => rw [valueOf_negative, abs_neg, abs_of_pos hpos]

/-- **A bit pattern keeps the value of a number, or saturates.** -/
theorem levelOf_clip {f : UnpackedFloat} (hregular : Regular f) (hfinite : f.isFinite = true) :
    levelOf (clip f) = saturate (valueOf f) := by
  cases f with
  | infinity s => cases hfinite
  | notANumber => cases hfinite
  | zero s =>
    have hzero : |valueOf (.zero s)| < ceiling := by
      change |(0 : ℚ)| < ceiling
      rw [abs_zero]
      exact ceiling_pos
    exact (saturate_of_lt hzero).symm
  | finite s m e hm =>
    have hpos := scaled_pos hm e
    rw [clip]
    split
    · next hfits =>
      rw [saturate_of_lt (abs_valueOf_finite ▸ hregular.lt_ceiling_iff.2 hfits)]
      rfl
    · next hlarge =>
      have hceiling : ceiling ≤ (m : ℚ) * 2 ^ e := not_lt.1 fun hlt => hlarge (hregular.lt_ceiling_iff.1 hlt)
      cases s with
      | positive =>
        rw [valueOf_positive, saturate, if_pos hceiling]
        rfl
      | negative =>
        rw [valueOf_negative, saturate, if_neg (by linarith [ceiling_pos]), if_pos (neg_le_neg hceiling)]
        rfl

/-! ## Comparisons -/

/-- The larger exponent has the larger number, and at one exponent the larger mantissa has. -/
theorem compares_scaled {m m' : ℕ} {e e' : ℤ} (h : Canonical m e) (h' : Canonical m' e') :
    ((compare e e').then (compare m m')).Compares ((m : ℚ) * 2 ^ e) (m' * 2 ^ e') := by
  have hexponents : ∀ {m m' : ℕ} {e e' : ℤ}, Canonical m e → Canonical m' e' → e < e' →
      (m : ℚ) * 2 ^ e < m' * 2 ^ e' := by
    intro m m' e e' h h' hlt
    calc (m : ℚ) * 2 ^ e < 2 ^ (e + 53) := h.scaled_lt
      _ ≤ 2 ^ (e' + 52) := zpow_le_zpow_right₀ one_le_two (by omega)
      _ ≤ m' * 2 ^ e' := h'.le_scaled (lt_of_le_of_lt h.low hlt)
  rcases lt_trichotomy e e' with hlt | rfl | hgt
  · rw [compare_lt_iff_lt.2 hlt]
    exact hexponents h h' hlt
  · have hpos : (0 : ℚ) < 2 ^ e := zpow_pos two_pos e
    rw [compare_eq_iff_eq.2 rfl, Ordering.eq_then]
    rcases lt_trichotomy m m' with hlt | rfl | hgt
    · rw [compare_lt_iff_lt.2 hlt]
      exact mul_lt_mul_of_pos_right (by exact_mod_cast hlt) hpos
    · rw [compare_eq_iff_eq.2 rfl]
      rfl
    · rw [compare_gt_iff_gt.2 hgt]
      exact mul_lt_mul_of_pos_right (by exact_mod_cast hgt) hpos
  · rw [compare_gt_iff_gt.2 hgt]
    exact hexponents h' h hgt

theorem coe_lt_coe {p q : ℚ} : ((p : WithTop ℚ) : Level) < ((q : WithTop ℚ) : Level) ↔ p < q := by
  rw [WithBot.coe_lt_coe, WithTop.coe_lt_coe]

theorem coe_lt_top (q : ℚ) : ((q : WithTop ℚ) : Level) < ⊤ := WithBot.coe_lt_coe.2 (WithTop.coe_lt_top q)

theorem bot_lt_coe (q : ℚ) : ⊥ < ((q : WithTop ℚ) : Level) := WithBot.bot_lt_coe _

theorem compares_coe {o : Ordering} {p q : ℚ} (h : o.Compares p q) :
    o.Compares ((p : WithTop ℚ) : Level) ((q : WithTop ℚ) : Level) := by
  cases o with
  | lt => exact coe_lt_coe.2 h
  | eq => exact congrArg (fun r : ℚ => ((r : WithTop ℚ) : Level)) h
  | gt => exact coe_lt_coe.2 h

/-- Comparing the two unpacked doubles gives the ordering of their levels. -/
def Ordered (f g : UnpackedFloat) : Prop :=
  ∃ o : Ordering, f.compare g = some o ∧ o.Compares (levelOf f) (levelOf g)

theorem ordered_infinity (s : Sign) {g : UnpackedFloat} (hg : g.isNaN = false) : Ordered (.infinity s) g := by
  cases g with
  | notANumber => cases hg
  | infinity t =>
    cases s <;> cases t
    · exact ⟨.eq, rfl, rfl⟩
    · exact ⟨.lt, rfl, (bot_lt_coe 0).trans (coe_lt_top 0)⟩
    · exact ⟨.gt, rfl, (bot_lt_coe 0).trans (coe_lt_top 0)⟩
    · exact ⟨.eq, rfl, rfl⟩
  | zero t =>
    cases s with
    | negative => exact ⟨.lt, rfl, bot_lt_coe _⟩
    | positive => exact ⟨.gt, rfl, coe_lt_top _⟩
  | finite t m' e' hm' =>
    cases s with
    | negative => exact ⟨.lt, rfl, bot_lt_coe _⟩
    | positive => exact ⟨.gt, rfl, coe_lt_top _⟩

theorem ordered_zero (s : Sign) {g : UnpackedFloat} (hg : g.isNaN = false) : Ordered (.zero s) g := by
  cases g with
  | notANumber => cases hg
  | infinity t =>
    cases t with
    | negative => exact ⟨.gt, rfl, bot_lt_coe _⟩
    | positive => exact ⟨.lt, rfl, coe_lt_top _⟩
  | zero t => exact ⟨.eq, rfl, rfl⟩
  | finite t m' e' hm' =>
    have hpos := scaled_pos hm' e'
    cases t with
    | negative =>
      refine ⟨.gt, rfl, coe_lt_coe.2 ?_⟩
      rw [valueOf_negative]
      exact neg_lt_zero.2 hpos
    | positive => exact ⟨.lt, rfl, coe_lt_coe.2 hpos⟩

/-- Two numbers with mantissas are ordered by their signs, and at one sign by exponent and mantissa. -/
theorem ordered_scaled {s t : Sign} {m m' : ℕ} {e e' : ℤ} {hm : 0 < m} {hm' : 0 < m'} (h : Canonical m e)
    (h' : Canonical m' e') : Ordered (.finite s m e hm) (.finite t m' e' hm') := by
  have hpos := scaled_pos hm e
  have hpos' := scaled_pos hm' e'
  have hscaled := compares_scaled h h'
  cases s with
  | positive =>
    cases t with
    | positive => exact ⟨_, rfl, compares_coe hscaled⟩
    | negative =>
      refine ⟨.gt, rfl, coe_lt_coe.2 ?_⟩
      rw [valueOf_negative, valueOf_positive]
      linarith
  | negative =>
    cases t with
    | positive =>
      refine ⟨.lt, rfl, coe_lt_coe.2 ?_⟩
      rw [valueOf_negative, valueOf_positive]
      linarith
    | negative =>
      refine ⟨_, rfl, compares_coe ?_⟩
      rw [valueOf_negative, valueOf_negative, Ordering.compares_swap]
      cases ho : (compare e e').then (compare m m') with
      | lt => rw [ho] at hscaled; exact neg_lt_neg hscaled
      | eq => rw [ho] at hscaled; exact (congrArg Neg.neg hscaled).symm
      | gt => rw [ho] at hscaled; exact neg_lt_neg hscaled

theorem ordered_finite {s : Sign} {m : ℕ} {e : ℤ} {hm : 0 < m} {g : UnpackedFloat} (h : Canonical m e)
    (hg : Regular g) (hgnan : g.isNaN = false) : Ordered (.finite s m e hm) g := by
  have hpos := scaled_pos hm e
  cases g with
  | notANumber => cases hgnan
  | infinity t =>
    cases t with
    | negative => exact ⟨.gt, by cases s <;> rfl, bot_lt_coe _⟩
    | positive => exact ⟨.lt, by cases s <;> rfl, coe_lt_top _⟩
  | zero t =>
    cases s with
    | negative =>
      refine ⟨.lt, rfl, coe_lt_coe.2 ?_⟩
      rw [valueOf_negative]
      exact neg_lt_zero.2 hpos
    | positive => exact ⟨.gt, rfl, coe_lt_coe.2 hpos⟩
  | finite t m' e' hm' => exact ordered_scaled h hg

/-- **Comparing unpacked doubles is comparing their levels.** -/
theorem ordered {f g : UnpackedFloat} (hf : Regular f) (hg : Regular g) (hfnan : f.isNaN = false)
    (hgnan : g.isNaN = false) : Ordered f g := by
  cases f with
  | notANumber => cases hfnan
  | infinity s => exact ordered_infinity s hgnan
  | zero s => exact ordered_zero s hgnan
  | finite s m e hm => exact ordered_finite hf hg hgnan

section Comparisons

variable {x y : Float} (hx : x.isNaN = false) (hy : y.isNaN = false)

include hx hy

/-- **Comparisons of doubles** that are numbers are comparisons of levels. -/
theorem lt_iff : x < y ↔ level x < level y := by
  obtain ⟨o, ho, hcompares⟩ := ordered (regular_unpack x) (regular_unpack y) hx hy
  have hbool : x < y ↔ o = .lt := by
    change decide (x.toModel < y.toModel) = true ↔ _
    rw [decide_eq_true_eq]
    change (x.toModel.unpack.compare y.toModel.unpack == some .lt) = true ↔ _
    rw [ho, beq_iff_eq, Option.some.injEq]
  rw [hbool]
  exact hcompares.eq_lt

theorem beq_iff : (x == y) = true ↔ level x = level y := by
  obtain ⟨o, ho, hcompares⟩ := ordered (regular_unpack x) (regular_unpack y) hx hy
  have hbool : (x == y) = true ↔ o = .eq := by
    change (x.toModel.unpack.compare y.toModel.unpack == some .eq) = true ↔ _
    rw [ho, beq_iff_eq, Option.some.injEq]
  rw [hbool]
  exact hcompares.eq_eq

theorem le_iff : x ≤ y ↔ level x ≤ level y := by
  obtain ⟨o, ho, hcompares⟩ := ordered (regular_unpack x) (regular_unpack y) hx hy
  have hbool : x ≤ y ↔ o ≠ .gt := by
    change decide (x.toModel ≤ y.toModel) = true ↔ _
    rw [decide_eq_true_eq]
    change (x.toModel.unpack.compare y.toModel.unpack).any (·.isLE) = true ↔ _
    rw [ho]
    cases o <;> decide
  rw [hbool]
  exact hcompares.ne_gt

end Comparisons

/-! ## Finite doubles -/

theorem valueOf_onGrid {f : UnpackedFloat} (h : Regular f) : OnGrid (valueOf f) := by
  cases f with
  | finite s m e hm =>
    refine ⟨s.apply m, e, ?_, h.low, rfl⟩
    have hlt : (m : ℤ) < 2 ^ 53 := by exact_mod_cast h.lt
    cases s with
    | positive => rw [Sign.apply, abs_of_nonneg (Int.natCast_nonneg m)]; exact hlt.le
    | negative => rw [Sign.apply, abs_neg, abs_of_nonneg (Int.natCast_nonneg m)]; exact hlt.le
  | _ => exact ⟨0, 0, by norm_num, by norm_num, by simp [valueOf]⟩

/-- **A finite double is a number of the grid.** -/
theorem value_onGrid (x : Float) : OnGrid (value x) := valueOf_onGrid (regular_unpack x)

/-- Doubles are below the ceiling. -/
theorem abs_value_lt (x : Float) : |value x| < ceiling := by
  unfold value
  cases hx : x.toModel.unpack with
  | finite s m e hm =>
    obtain ⟨hcanonical, hfits⟩ := canonical_unpack hx
    rw [abs_valueOf_finite]
    exact hcanonical.lt_ceiling_iff.2 hfits
  | _ => exact abs_zero.trans_lt ceiling_pos

section Finite

variable {x y : Float} (hx : x.isFinite = true) (hy : y.isFinite = true)

include hx hy

theorem lt_iff_value : x < y ↔ value x < value y := by
  rw [lt_iff (isNaN_of_isFinite hx) (isNaN_of_isFinite hy), level_of_isFinite hx, level_of_isFinite hy, coe_lt_coe]

theorem le_iff_value : x ≤ y ↔ value x ≤ value y := by
  rw [le_iff (isNaN_of_isFinite hx) (isNaN_of_isFinite hy), level_of_isFinite hx, level_of_isFinite hy,
    WithBot.coe_le_coe, WithTop.coe_le_coe]

end Finite

end CurveScript.Doubles
