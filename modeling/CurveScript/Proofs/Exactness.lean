/-
Arithmetic of integers is exact, or an overflow.

What an operator on integers ought to give is a number among all integers. It is given if it lies in the 64-bit range,
and otherwise the operator fails. There are two kinds of operands for which the answer is no integer of the language
although the number is one: the remainder of the least integer by -1, whose quotient leaves the range, and powers with
an exponent of more than 32 bits, of bases whose powers stay small.

Results:
- `checked_exactly`: what is checked against the range is exact, or an overflow.
- `quotient_inRange`, `rem_overflow_iff`: the only quotient that leaves the range, and the only remainder that is an
  overflow.
- `pow_not_inRange`, `pow?_eq`: powers of a base of size two or more leave the range by the exponent 64; the others repeat,
  so that cutting exponents down changes nothing.
- `integers_exact`: all operators that keep integers, and negation.
- `long_exponent`: an exponent of more than 32 bits is an overflow, whatever the base.
Witness: `corners_exact`, at the ends of the range. `remainder_refused`: the two kinds of operands that are left out.
-/
import Mathlib.Algebra.Ring.Commute
import Mathlib.Tactic.NormNum
import CurveScript.Value.Arithmetic

namespace CurveScript.Exactness

open CurveScript.Integer

/-! ## Exact results -/

/-- what an operator ought to give for two integers, where that is a number among the integers -/
def result? (op : BinaryOperator) (a b : Int) : Option Int :=
  match op with
  | .add => some (a + b)
  | .sub => some (a - b)
  | .mul => some (a * b)
  | .rem => if b = 0 then none else some (a.tmod b)
  | .pow => if b < 0 then none else some (a ^ b.toNat)
  | _ => none

/-- The outcome is the integer `r` of the language if there is one, or else the overflow of the operator. -/
structure Exactly (symbol : String) (r : Int) (outcome : Except EvalError Value) : Prop where
  value : InRange r → ∃ n : Int64, outcome = .ok (.integer n) ∧ n.toInt = r
  overflow : outcome = .error (.overflow symbol) ↔ ¬ InRange r

theorem exactly_value {symbol : String} {r : Int} {n : Int64} (hr : InRange r) (hn : n.toInt = r) :
    Exactly symbol r (.ok (.integer n)) :=
  ⟨fun _ => ⟨n, rfl, hn⟩, fun h => (by cases h), fun h => absurd hr h⟩

theorem exactly_overflow {symbol : String} {r : Int} (hr : ¬ InRange r) :
    Exactly symbol r (.error (.overflow symbol)) :=
  ⟨fun h => absurd h hr, fun _ => hr, fun _ => rfl⟩

theorem ofInt?_of_inRange {r : Int} (h : InRange r) : ∃ n, ofInt? r = some n ∧ n.toInt = r := by
  have hsome : ofInt? r = some (Int64.ofInt r) := if_pos h
  exact ⟨Int64.ofInt r, hsome, toInt_of_ofInt? hsome⟩

theorem ofInt?_of_not_inRange {r : Int} (h : ¬ InRange r) : ofInt? r = none := if_neg h

/-- **What is checked** against the range is exact, or an overflow. -/
theorem checked_exactly (op : BinaryOperator) (r : Int) : Exactly op.symbol r (Value.checked op (ofInt? r)) := by
  by_cases hr : InRange r
  · obtain ⟨n, hsome, hn⟩ := ofInt?_of_inRange hr
    rw [hsome]
    exact exactly_value hr hn
  · rw [ofInt?_of_not_inRange hr]
    exact exactly_overflow hr

/-- **Negation** is checked like a difference, and has the symbol of one. -/
theorem negate_exactly (a : Int64) : Exactly "-" (-a.toInt) (Value.unary .negate (.integer a)) := by
  have hchecked : Value.unary .negate (.integer a) = Value.checked .sub (ofInt? (-a.toInt)) := rfl
  rw [hchecked]
  exact checked_exactly .sub (-a.toInt)

/-! ## Remainders -/

/-- the operands whose quotient leaves the range -/
def QuotientLeaves (a b : Int64) : Prop := a = Int64.minValue ∧ b = -1

theorem toInt_eq_min {a : Int64} : a.toInt = -9223372036854775808 ↔ a = Int64.minValue := by
  rw [← Int64.toInt_inj, Int64.toInt_minValue]
  norm_num

theorem toInt_eq_neg_one {b : Int64} : b.toInt = -1 ↔ b = -1 := by
  rw [← Int64.toInt_inj]
  rfl

/-- **Quotients** stay in the range, except that of the least integer by -1. -/
theorem quotient_inRange {a b : Int64} (hb : b ≠ 0) : InRange (a.toInt.tdiv b.toInt) ↔ ¬ QuotientLeaves a b := by
  have hzero : b.toInt ≠ 0 := fun h => hb (Int64.toInt_inj.1 h)
  obtain ⟨hlow, hhigh⟩ := inRange_toInt a
  have hsize : (a.toInt.tdiv b.toInt).natAbs = a.toInt.natAbs / b.toInt.natAbs := Int.natAbs_tdiv _ _
  constructor
  · rintro hr ⟨rfl, rfl⟩
    revert hr
    decide
  · intro hleaves
    by_cases hsmall : b.toInt.natAbs = 1
    · -- the quotient is the dividend or its negation
      rcases Int.natAbs_eq_iff.1 hsmall with hone | hone
      · rw [hone, Nat.cast_one, Int.tdiv_one]
        exact ⟨hlow, hhigh⟩
      · have hne : a.toInt ≠ -9223372036854775808 := by
          intro hmin
          refine hleaves ⟨toInt_eq_min.1 hmin, toInt_eq_neg_one.1 ?_⟩
          rw [hone, Nat.cast_one]
        rw [hone, Nat.cast_one, Int.tdiv_neg, Int.tdiv_one]
        exact ⟨by omega, by omega⟩
    · have htwo : 2 ≤ b.toInt.natAbs := by omega
      have hhalf : a.toInt.natAbs / b.toInt.natAbs ≤ a.toInt.natAbs / 2 := Nat.div_le_div_left htwo (by omega)
      exact ⟨by omega, by omega⟩

/-- **Remainders.** -/
theorem rem_exactly {a b : Int64} (hb : b ≠ 0) (hleaves : ¬ QuotientLeaves a b) :
    Exactly BinaryOperator.rem.symbol (a.toInt.tmod b.toInt) (Value.binary .rem (.integer a) (.integer b)) := by
  change Exactly _ _ (if b = 0 then _ else Value.checked .rem (rem? a b))
  rw [if_neg hb, rem?, if_pos ((quotient_inRange hb).2 hleaves)]
  exact checked_exactly .rem _

theorem remainder_inRange {a b : Int64} (hb : b ≠ 0) : InRange (a.toInt.tmod b.toInt) := by
  have hzero : b.toInt ≠ 0 := fun h => hb (Int64.toInt_inj.1 h)
  obtain ⟨hlow, hhigh⟩ := inRange_toInt b
  have hsize : (a.toInt.tmod b.toInt).natAbs < b.toInt.natAbs := by
    rw [Int.natAbs_tmod]
    exact Nat.mod_lt _ (by omega)
  exact ⟨by omega, by omega⟩

/-- The only remainder that is an overflow, although no remainder leaves the range. -/
theorem rem_overflow_iff {a b : Int64} (hb : b ≠ 0) :
    Value.binary .rem (.integer a) (.integer b) = .error (.overflow "%") ↔ QuotientLeaves a b := by
  constructor
  · intro hoverflow
    by_contra hleaves
    exact (rem_exactly hb hleaves).overflow.1 hoverflow (remainder_inRange hb)
  · rintro ⟨rfl, rfl⟩
    rfl

/-! ## Powers -/

/-- A base of size two or more leaves the range by the exponent 64. -/
theorem pow_not_inRange {a : Int} (ha : 2 ≤ a.natAbs) {n : Nat} (hn : 64 ≤ n) : ¬ InRange (a ^ n) := by
  rintro ⟨hlow, hhigh⟩
  have hsize : (a ^ n).natAbs = a.natAbs ^ n := Int.natAbs_pow a n
  have hlarge : 2 ^ 64 ≤ a.natAbs ^ n :=
    calc 2 ^ 64 ≤ 2 ^ n := Nat.pow_le_pow_right (by omega) hn
      _ ≤ a.natAbs ^ n := Nat.pow_le_pow_left ha n
  omega

/-- The powers of a smaller base repeat after two, from the first on. -/
theorem pow_parity {a : Int} (ha : a.natAbs ≤ 1) {n : Nat} (hn : 64 ≤ n) : a ^ (64 + n % 2) = a ^ n := by
  obtain rfl | rfl | rfl : a = 0 ∨ a = 1 ∨ a = -1 := by omega
  · rw [Int.zero_pow (by omega), Int.zero_pow (by omega)]
  · rw [Int.one_pow, Int.one_pow]
  · rw [neg_one_pow_eq_pow_mod_two, neg_one_pow_eq_pow_mod_two n]
    congr 1
    omega

/-- **Cutting exponents down** changes no power. -/
theorem pow?_eq (a : Int64) (n : Nat) : pow? a n = ofInt? (a.toInt ^ n) := by
  change ofInt? (a.toInt ^ (if n < 64 then n else 64 + n % 2)) = ofInt? (a.toInt ^ n)
  by_cases hn : n < 64
  · rw [if_pos hn]
  · rw [if_neg hn]
    by_cases ha : a.toInt.natAbs ≤ 1
    · rw [pow_parity ha (by omega)]
    · have htwo : 2 ≤ a.toInt.natAbs := by omega
      rw [ofInt?_of_not_inRange (pow_not_inRange htwo (by omega)), ofInt?_of_not_inRange (pow_not_inRange htwo (by omega))]

/-- an exponent of more than 32 bits, of a base whose powers stay small -/
def LongExponent (a b : Int64) : Prop := Value.exponentCount ≤ b.toInt.toNat ∧ a.toInt.natAbs ≤ 1

theorem binary_pow {a b : Int64} (hb : 0 ≤ b.toInt) : Value.binary .pow (.integer a) (.integer b) =
    if Value.exponentCount ≤ b.toInt.toNat then .error (.overflow BinaryOperator.pow.symbol)
    else Value.checked .pow (pow? a b.toInt.toNat) := by
  change Value.integerPower a b = _
  unfold Value.integerPower
  rw [if_neg (Int.not_lt.2 hb)]

/-- An exponent of more than 32 bits is an overflow, whatever the base. -/
theorem long_exponent {a b : Int64} (hb : 4294967296 ≤ b.toInt) :
    Value.binary .pow (.integer a) (.integer b) = .error (.overflow BinaryOperator.pow.symbol) := by
  have hlong : Value.exponentCount ≤ b.toInt.toNat := by
    unfold Value.exponentCount
    omega
  rw [binary_pow (by omega), if_pos hlong]

/-- **Powers.** -/
theorem pow_exactly {a b : Int64} (hb : 0 ≤ b.toInt) (hlong : ¬ LongExponent a b) :
    Exactly BinaryOperator.pow.symbol (a.toInt ^ b.toInt.toNat) (Value.binary .pow (.integer a) (.integer b)) := by
  rw [binary_pow hb]
  by_cases hcount : Value.exponentCount ≤ b.toInt.toNat
  · have htwo : 2 ≤ a.toInt.natAbs := by
      by_contra hsmall
      exact hlong ⟨hcount, by omega⟩
    have hlarge : 64 ≤ b.toInt.toNat := by
      unfold Value.exponentCount at hcount
      omega
    rw [if_pos hcount]
    exact exactly_overflow (pow_not_inRange htwo hlarge)
  · rw [if_neg hcount, pow?_eq]
    exact checked_exactly .pow _

/-! ## Main result -/

/-- operands that are left out: a quotient leaves the range, or an exponent has more than 32 bits -/
def LeftOut (op : BinaryOperator) (a b : Int64) : Prop :=
  match op with
  | .rem => QuotientLeaves a b
  | .pow => LongExponent a b
  | _ => False

/-- **Arithmetic of integers is exact, or an overflow.** Sums, differences, products, remainders by a number other than
zero, powers with an exponent that is not negative, and negations are the exact result if it lies in the 64-bit range,
and an overflow of their operator exactly if it does not. Left out are the remainder of the least integer by -1, which
is an overflow like its quotient and is the only remainder that is one, and powers of -1, 0 and 1 with an exponent of
more than 32 bits. -/
theorem integers_exact :
    (∀ (op : BinaryOperator) (a b : Int64) (r : Int), result? op a.toInt b.toInt = some r → ¬ LeftOut op a b →
      Exactly op.symbol r (Value.binary op (.integer a) (.integer b))) ∧
    (∀ a b : Int64, b ≠ 0 → (Value.binary .rem (.integer a) (.integer b) = .error (.overflow "%") ↔
      a = Int64.minValue ∧ b = -1)) ∧
    ∀ a : Int64, Exactly "-" (-a.toInt) (Value.unary .negate (.integer a)) := by
  refine ⟨fun op a b r hr hleft => ?_, fun a b hb => rem_overflow_iff hb, negate_exactly⟩
  cases op with
  | add =>
    cases hr
    exact checked_exactly .add _
  | sub =>
    cases hr
    exact checked_exactly .sub _
  | mul =>
    cases hr
    exact checked_exactly .mul _
  | rem =>
    simp only [result?] at hr
    split at hr
    · cases hr
    · next hzero =>
      cases hr
      have hb : b ≠ 0 := by
        rintro rfl
        exact hzero rfl
      exact rem_exactly hb hleft
  | pow =>
    simp only [result?] at hr
    split at hr
    · cases hr
    · next hnegative =>
      cases hr
      exact pow_exactly (Int.not_lt.1 hnegative) hleft
  | div | eq | ne | lt | le | gt | ge => cases hr

/-! ## Witness: the ends of the range -/

/-- The power that is the least integer is given, and the one right above the greatest is an overflow. -/
theorem corners_exact :
    result? .pow (-2 : Int64).toInt (63 : Int64).toInt = some (-9223372036854775808) ∧ ¬ LeftOut .pow (-2) 63 ∧
      (∃ n, Value.binary .pow (.integer (-2)) (.integer 63) = .ok (.integer n) ∧ n.toInt = -9223372036854775808) ∧
      result? .pow (2 : Int64).toInt (63 : Int64).toInt = some 9223372036854775808 ∧ ¬ LeftOut .pow 2 63 ∧
      Value.binary .pow (.integer 2) (.integer 63) = .error (.overflow "^") ∧
      Value.unary .negate (.integer Int64.minValue) = .error (.overflow "-") := by
  obtain ⟨hbinary, -, hnegate⟩ := integers_exact
  have hleast : result? .pow (-2 : Int64).toInt (63 : Int64).toInt = some (-9223372036854775808) := by decide
  have habove : result? .pow (2 : Int64).toInt (63 : Int64).toInt = some 9223372036854775808 := by decide
  have hshort : ∀ a : Int64, ¬ LeftOut .pow a 63 := by
    rintro a ⟨hlong, -⟩
    revert hlong
    decide
  have hgiven := (hbinary .pow (-2) 63 _ hleast (hshort (-2))).value (by decide)
  have hrefused := (hbinary .pow 2 63 _ habove (hshort 2)).overflow.2 (by decide)
  exact ⟨hleast, hshort (-2), hgiven, habove, hshort 2, hrefused, (hnegate Int64.minValue).overflow.2 (by decide)⟩

/-- **What is left out** is an overflow where the exact result lies in the range: the remainder of the least integer by
-1 is 0, and every power of 1 is 1. -/
theorem remainder_refused :
    (result? .rem Int64.minValue.toInt (-1 : Int64).toInt = some 0 ∧ InRange 0 ∧
      Value.binary .rem (.integer Int64.minValue) (.integer (-1)) = .error (.overflow "%") ∧
      ¬ Exactly "%" 0 (Value.binary .rem (.integer Int64.minValue) (.integer (-1)))) ∧
    (result? .pow (1 : Int64).toInt (4294967296 : Int64).toInt = some 1 ∧ InRange 1 ∧
      Value.binary .pow (.integer 1) (.integer 4294967296) = .error (.overflow "^") ∧
      ¬ Exactly "^" 1 (Value.binary .pow (.integer 1) (.integer 4294967296))) := by
  have hzero : InRange 0 := by decide
  have hone : InRange 1 := by decide
  have hrem : Value.binary .rem (.integer Int64.minValue) (.integer (-1)) = .error (.overflow "%") := rfl
  have hpow : Value.binary .pow (.integer 1) (.integer 4294967296) = .error (.overflow "^") := long_exponent (by decide)
  have hexact : result? .pow (1 : Int64).toInt (4294967296 : Int64).toInt = some 1 := by
    have hbase : (1 : Int64).toInt = 1 := rfl
    have hexponent : ¬ (4294967296 : Int64).toInt < 0 := by decide
    rw [hbase, result?, if_neg hexponent, Int.one_pow]
  exact ⟨⟨rfl, hzero, hrem, fun h => h.overflow.1 hrem hzero⟩, hexact, hone, hpow, fun h => h.overflow.1 hpow hone⟩

end CurveScript.Exactness
