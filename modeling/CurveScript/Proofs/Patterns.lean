/-
Doubles as exact numbers.

The exact value of a double is read off the three fields of its bit pattern. The runtime unpacks the same pattern to a
sign, a mantissa and an exponent, and the two agree on all finite doubles. A bit pattern is determined by its exact
value, the sign of a zero included, so doubles can be told apart by what they stand for.

Results:
- `fractionField_eq`, `exponentField_eq`, `signBit_eq`: the fields of a pattern.
- `toBinary_of_finite`, `toBinary_of_zero`: the exact value of a double that unpacks to a number.
- `value_eq_magnitude`, `canonical_toBinary`: the number that a finite double stands for.
- `toBinary_injective`, `eq_of_unpack`, `eq_of_value`: doubles with the same exact value are the same.
-/
import CurveScript.Double.Binary
import CurveScript.Proofs.Operations

namespace CurveScript.Patterns

open Float.Model Float.Model.UnpackedFloat CurveScript.Double CurveScript.Doubles CurveScript.Operations

/-! ## Fields -/

/-- whether the sign is a minus -/
def isMinus : Sign → Bool
  | .negative => true
  | .positive => false

section Fields

variable (b : BitVec Format.binary64.numBits)

theorem fractionField_eq : (unpackMantissa b).toNat = fractionField b.toNat := by
  simp [unpackMantissa, fractionField, impliedBit]

theorem exponentField_eq : (unpackExponent b).toNat = exponentField b.toNat := by
  simp [unpackExponent, exponentField, impliedBit, Nat.shiftRight_eq_div_pow]

theorem signBit_eq : isMinus (Sign.ofBitVec (unpackSign b)) = signBit b.toNat := by
  have hbit : (unpackSign b).toNat = b.toNat / 2 ^ 63 % 2 := by
    simp [unpackSign, Nat.shiftRight_eq_div_pow]
  rw [signBit, Nat.testBit_eq_decide_div_mod_eq, ← hbit, Sign.ofBitVec]
  have hlt := (unpackSign b).isLt
  split
  · next hzero => simp [hzero, isMinus]
  · next hone =>
    have hne : (unpackSign b).toNat ≠ 0 := fun heq => hone (BitVec.eq_of_toNat_eq heq)
    have heq : (unpackSign b).toNat = 1 := by omega
    simp [heq, isMinus]

end Fields

/-! ## Exact values -/

section Values

variable {x y : Float} {s : Sign}

theorem negative_toBinary (x : Float) : (toBinary x).negative = isNegative x := by
  unfold toBinary Binary.ofBits isNegative
  split <;> rfl

/-- A zero has no mantissa, but a sign. -/
theorem toBinary_of_zero (h : x.toModel.unpack = .zero s) : toBinary x = ⟨isMinus s, 0, -1074⟩ := by
  unfold toBinary
  change Binary.ofBits x.toModel.toBits.toBitVec.toNat = _
  change UnpackedFloat.unpack Format.binary64 x.toModel.toBits.toBitVec = _ at h
  generalize x.toModel.toBits.toBitVec = b at h ⊢
  unfold UnpackedFloat.unpack at h
  dsimp only at h
  split at h
  · split at h <;> cases h
  · split at h
    · next hexponent =>
      split at h
      · next hmantissa =>
        cases h
        have hfirst : exponentField b.toNat = 0 := by rw [← exponentField_eq, hexponent]; rfl
        have hnone : fractionField b.toNat = 0 := by rw [← fractionField_eq, hmantissa]; rfl
        rw [Binary.ofBits, if_pos hfirst, hnone, signBit_eq]
      · cases h
    · cases h

/-- **The exact value of a double is what it unpacks to.** -/
theorem toBinary_of_finite {m : ℕ} {e : ℤ} {hm : 0 < m} (h : x.toModel.unpack = .finite s m e hm) :
    toBinary x = ⟨isMinus s, m, e⟩ := by
  unfold toBinary
  change Binary.ofBits x.toModel.toBits.toBitVec.toNat = _
  change UnpackedFloat.unpack Format.binary64 x.toModel.toBits.toBitVec = _ at h
  generalize x.toModel.toBits.toBitVec = b at h ⊢
  unfold UnpackedFloat.unpack at h
  simp only [exponentBias_eq] at h
  split at h
  · split at h <;> cases h
  · split at h
    · next hexponent =>
      split at h
      · cases h
      · cases h
        have hfirst : exponentField b.toNat = 0 := by rw [← exponentField_eq, hexponent]; rfl
        rw [Binary.ofBits, if_pos hfirst, signBit_eq, fractionField_eq, exponentField_eq, hfirst]
        rfl
    · next hexponent =>
      cases h
      have hlater : exponentField b.toNat ≠ 0 := by
        rw [← exponentField_eq]
        exact fun heq => hexponent (BitVec.eq_of_toNat_eq heq)
      rw [Binary.ofBits, if_neg hlater, signBit_eq, toNat_impliedBit, fractionField_eq, exponentField_eq]
      rfl

/-- the number without its sign -/
def magnitude (b : Binary) : ℚ := b.mantissa * 2 ^ b.exponent

/-- **The number that a finite double stands for** has the size and the sign of its exact value. -/
theorem value_eq_magnitude (hx : x.isFinite = true) :
    value x = if isNegative x then -magnitude (toBinary x) else magnitude (toBinary x) := by
  rw [← negative_toBinary]
  rcases finite_cases hx with ⟨s, hs⟩ | ⟨s, m, e, hm, hs⟩
  · rw [value, hs, toBinary_of_zero hs]
    simp [valueOf, magnitude]
  · rw [value, hs, toBinary_of_finite hs]
    cases s with
    | positive => exact valueOf_positive
    | negative => exact valueOf_negative

theorem canonical_toBinary (hx : x.isFinite = true) :
    Canonical (toBinary x).mantissa (toBinary x).exponent ∧ (toBinary x).exponent ≤ 971 := by
  rcases finite_cases hx with ⟨s, hs⟩ | ⟨s, m, e, hm, hs⟩
  · rw [toBinary_of_zero hs]
    exact ⟨⟨by norm_num, le_rfl, Or.inr rfl⟩, by norm_num⟩
  · rw [toBinary_of_finite hs]
    exact canonical_unpack hs

/-- A mantissa of zero leaves the two zeros. -/
theorem toBinary_of_mantissa_eq_zero (hx : x.isFinite = true) (hm : (toBinary x).mantissa = 0) :
    toBinary x = ⟨isNegative x, 0, -1074⟩ := by
  rw [← negative_toBinary]
  rcases finite_cases hx with ⟨s, hs⟩ | ⟨s, m, e, hpos, hs⟩
  · rw [toBinary_of_zero hs]
  · rw [toBinary_of_finite hs] at hm
    exact absurd hm hpos.ne'

/-- The fields are found again in the exact value. -/
theorem fields_of_ofBits (bits : ℕ) :
    signBit bits = (Binary.ofBits bits).negative ∧
      (exponentField bits : ℤ) = (if (Binary.ofBits bits).mantissa < impliedBit then 0
        else (Binary.ofBits bits).exponent + 1075) ∧
      fractionField bits = (Binary.ofBits bits).mantissa % impliedBit := by
  have hlt : fractionField bits < impliedBit := Nat.mod_lt _ (by decide)
  unfold Binary.ofBits
  split
  · next hzero => exact ⟨rfl, by simp [hzero], (Nat.mod_eq_of_lt hlt).symm⟩
  · refine ⟨rfl, ?_, ?_⟩
    · rw [if_neg (Nat.not_lt.2 (Nat.le_add_right _ _)), sub_add_cancel]
    · rw [Nat.add_mod_left, Nat.mod_eq_of_lt hlt]

/-- **A double is determined by its exact value.** -/
theorem toBinary_injective : Function.Injective toBinary := by
  intro x y h
  have hx : x.toBits.toNat < 2 ^ 64 := x.toBits.toNat_lt
  have hy : y.toBits.toNat < 2 ^ 64 := y.toBits.toNat_lt
  obtain ⟨hsign, hexponent, hfraction⟩ := fields_of_ofBits x.toBits.toNat
  obtain ⟨hsign', hexponent', hfraction'⟩ := fields_of_ofBits y.toBits.toNat
  change Binary.ofBits x.toBits.toNat = Binary.ofBits y.toBits.toNat at h
  rw [h] at hsign hexponent hfraction
  have hsame : x.toBits.toNat = y.toBits.toNat := by
    have hs : x.toBits.toNat / 2 ^ 63 % 2 = 1 ↔ y.toBits.toNat / 2 ^ 63 % 2 = 1 := by
      have heq := hsign.trans hsign'.symm
      rwa [signBit, signBit, Nat.testBit_eq_decide_div_mod_eq, Nat.testBit_eq_decide_div_mod_eq, decide_eq_decide] at heq
    have he := hexponent.trans hexponent'.symm
    have hf := hfraction.trans hfraction'.symm
    unfold exponentField at he
    unfold fractionField at hf
    unfold impliedBit at he hf
    omega
  have hbits : x.toBits = y.toBits := UInt64.toNat_inj.1 hsame
  obtain ⟨⟨xb, hxb⟩⟩ := x
  obtain ⟨⟨yb, hyb⟩⟩ := y
  obtain rfl : xb = yb := hbits
  rfl

/-- Finite doubles that unpack alike are the same. -/
theorem eq_of_unpack (hx : x.isFinite = true) (h : y.toModel.unpack = x.toModel.unpack) : y = x := by
  apply toBinary_injective
  rcases finite_cases hx with ⟨s, hs⟩ | ⟨s, m, e, hm, hs⟩
  · rw [toBinary_of_zero hs, toBinary_of_zero (h.trans hs)]
  · rw [toBinary_of_finite hs, toBinary_of_finite (h.trans hs)]

/-- A canonical mantissa and its exponent are determined by the number. -/
theorem canonical_unique {m m' : ℕ} {e e' : ℤ} (h : Canonical m e) (h' : Canonical m' e')
    (heq : (m : ℚ) * 2 ^ e = m' * 2 ^ e') : m = m' ∧ e = e' := by
  have hboth := (compares_scaled h h').eq_eq.2 heq
  rw [Ordering.then_eq_eq, compare_eq_iff_eq, compare_eq_iff_eq] at hboth
  exact hboth.symm

/-- **Finite doubles that stand for the same number** are the same, unless they are zeros. -/
theorem eq_of_value (hx : x.isFinite = true) (hy : y.isFinite = true) (hne : value x ≠ 0)
    (h : value y = value x) : y = x := by
  have hregular := regular_unpack x
  have hregular' := regular_unpack y
  apply eq_of_unpack hx
  unfold value at hne h
  rcases finite_cases hx with ⟨s, hs⟩ | ⟨s, m, e, hm, hs⟩
  · rw [hs] at hne
    exact absurd rfl hne
  rcases finite_cases hy with ⟨t, ht⟩ | ⟨t, m', e', hm', ht⟩
  · rw [← h, ht] at hne
    exact absurd rfl hne
  rw [hs] at h hregular ⊢
  rw [ht] at h hregular' ⊢
  have hsize : (m' : ℚ) * 2 ^ e' = m * 2 ^ e := by
    have habs := congrArg (fun q : ℚ => |q|) h
    simpa only [abs_valueOf_finite] using habs
  obtain ⟨rfl, rfl⟩ := canonical_unique hregular' hregular hsize
  have hpos := scaled_pos hm e'
  have hsign : t = s := by
    rw [valueOf_finite, valueOf_finite] at h
    cases t <;> cases s <;> simp only [signed_positive, signed_negative] at h
    · rfl
    · linarith
    · linarith
    · rfl
  rw [hsign]

end Values

end CurveScript.Patterns
