/-
The order that comparisons of numbers say.

Two integers are compared as they are, and any other two numbers as doubles. The answers of the six comparisons are those
of one ordering of the two operands, which is the order of the integers or of the levels of the doubles
(`comparison_answers`). So of less, equal and greater exactly one holds, and the other comparisons follow from it.

The two orders do not make one. Integers from `2 ^ 53` on share doubles, so a float can lie level with two integers of
which one is greater. `Blurred` says so, and it is the only way in which comparing is not transitive.

Results:
- `comparison_answers`: the answers of all comparisons.
- `le_trans_or_blurred`, `eq_trans_or_blurred`: chains of comparisons.
- `comparisons_ordered`: the theorem.
Witness: `neighbours_blurred`. Refutation: `comparing_not_transitive`.
-/
import CurveScript.Proofs.Operations
import CurveScript.Value.Arithmetic

namespace CurveScript.Comparing

open CurveScript.Rounding CurveScript.Doubles CurveScript.Operations

/-! ## Numbers in order -/

/-- an integer, or a float that is a number -/
inductive Numeric : Value → Prop where
  | integer (n : Int64) : Numeric (.integer n)
  | float {x : Float} (h : x.isNaN = false) : Numeric (.float x)

/-- where a number stands among the doubles -/
def rank : Value → Level
  | .integer n => level (Integer.toDouble n)
  | .float x => level x
  | _ => ⊥

/-- how two numbers compare: two integers as they are, any others as doubles -/
def order : Value → Value → Ordering
  | .integer a, .integer b => compare a.toInt b.toInt
  | a, b => cmp (rank a) (rank b)

/-- Integers are at most `2 ^ 63` in size. -/
theorem toDouble_value (n : Int64) :
    (Integer.toDouble n).isFinite = true ∧ value (Integer.toDouble n) = nearest n.toInt := by
  obtain ⟨hlow, hhigh⟩ := Integer.inRange_toInt n
  exact ofInt_value (by rw [abs_le]; constructor <;> omega)

theorem toDouble_isNaN (n : Int64) : (Integer.toDouble n).isNaN = false := isNaN_of_isFinite (toDouble_value n).1

theorem rank_integer (n : Int64) : rank (.integer n) = ((nearest n.toInt : WithTop ℚ) : Level) := by
  obtain ⟨hfinite, hvalue⟩ := toDouble_value n
  rw [rank, level_of_isFinite hfinite, hvalue]

/-- **Integers keep their order as doubles**, though not strictly. -/
theorem rank_mono {m n : Int64} (h : m.toInt ≤ n.toInt) : rank (.integer m) ≤ rank (.integer n) := by
  rw [rank_integer, rank_integer, WithBot.coe_le_coe, WithTop.coe_le_coe]
  exact nearest_mono (by exact_mod_cast h)

/-- Integers of at most `2 ^ 53` in size are doubles. -/
theorem rank_injective {m n : Int64} (hm : |m.toInt| ≤ 2 ^ 53) (hn : |n.toInt| ≤ 2 ^ 53)
    (h : rank (.integer m) = rank (.integer n)) : m.toInt = n.toInt := by
  rw [rank_integer, rank_integer, nearest_eq_self (onGrid_intCast hm), nearest_eq_self (onGrid_intCast hn)] at h
  exact_mod_cast WithTop.coe_injective (WithBot.coe_injective h)

/-! ## The answers -/

/-- the answer of a comparison is yes -/
def Yes (op : BinaryOperator) (a b : Value) : Prop := Value.binary op a b = .ok (.integer 1)

theorem floats_order {x y : Float} (hx : x.isNaN = false) (hy : y.isNaN = false) :
    Value.compareOperands (.floats x y) = some (cmp (level x) (level y)) := by
  unfold Value.compareOperands
  simp only [lt_iff hx hy, lt_iff hy hx, beq_iff hx hy]
  rcases lt_trichotomy (level x) (level y) with hlt | heq | hgt
  · rw [if_pos hlt, (cmp_eq_lt_iff _ _).2 hlt]
  · rw [if_neg heq.not_lt, if_pos heq, (cmp_eq_eq_iff _ _).2 heq]
  · rw [if_neg hgt.not_gt, if_neg hgt.ne', if_pos hgt, (cmp_eq_gt_iff _ _).2 hgt]

theorem floatOperation_answer {op : BinaryOperator} (hop : op.isComparison = true) {x y : Float}
    (hx : x.isNaN = false) (hy : y.isNaN = false) :
    Value.floatOperation op x y = .ok (Value.truth (Value.holds op (some (cmp (level x) (level y))))) := by
  rw [← floats_order hx hy]
  cases op <;> first | rfl | cases hop

/-- **The answers of comparisons** are those of one ordering of the operands. -/
theorem comparison_answers {op : BinaryOperator} (hop : op.isComparison = true) {a b : Value} (ha : Numeric a)
    (hb : Numeric b) : Value.binary op a b = .ok (Value.truth (Value.holds op (some (order a b)))) := by
  cases ha with
  | integer m =>
    cases hb with
    | integer n => cases op <;> first | rfl | cases hop
    | float hy => exact floatOperation_answer hop (toDouble_isNaN m) hy
  | float hx =>
    cases hb with
    | integer n => exact floatOperation_answer hop hx (toDouble_isNaN n)
    | float hy => exact floatOperation_answer hop hx hy

section Answers

variable {a b : Value} (ha : Numeric a) (hb : Numeric b)

include ha hb

theorem yes_iff {op : BinaryOperator} (hop : op.isComparison = true) :
    Yes op a b ↔ Value.holds op (some (order a b)) = true := by
  rw [Yes, comparison_answers hop ha hb]
  cases Value.holds op (some (order a b)) with
  | false => exact ⟨fun h => (by decide : (0 : Int64) ≠ 1).elim (Value.integer.inj (Except.ok.inj h)), nofun⟩
  | true => exact ⟨fun _ => rfl, fun _ => rfl⟩

theorem yes_lt : Yes .lt a b ↔ order a b = .lt := (yes_iff ha hb rfl).trans (by cases order a b <;> decide)

theorem yes_eq : Yes .eq a b ↔ order a b = .eq := (yes_iff ha hb rfl).trans (by cases order a b <;> decide)

theorem yes_gt : Yes .gt a b ↔ order a b = .gt := (yes_iff ha hb rfl).trans (by cases order a b <;> decide)

theorem yes_le : Yes .le a b ↔ order a b ≠ .gt := (yes_iff ha hb rfl).trans (by cases order a b <;> decide)

theorem yes_ne : Yes .ne a b ↔ order a b ≠ .eq := (yes_iff ha hb rfl).trans (by cases order a b <;> decide)

end Answers

/-! ## Chains -/

/-- A float lies level with two integers, of which the first is greater. -/
inductive Blurred : Value → Value → Value → Prop where
  | intro {m n : Int64} {x : Float} (hlt : n.toInt < m.toInt) (hm : (Integer.toDouble m == x) = true)
      (hn : (Integer.toDouble n == x) = true) : Blurred (.integer m) (.float x) (.integer n)

section Chains

variable {a b c : Value} (ha : Numeric a) (hb : Numeric b) (hc : Numeric c)

theorem order_integers (m n : Int64) : order (.integer m) (.integer n) = compare m.toInt n.toInt := rfl

include ha hb in
theorem order_ranks : (∃ m n, a = .integer m ∧ b = .integer n) ∨ order a b = cmp (rank a) (rank b) := by
  cases ha with
  | float hx => exact Or.inr rfl
  | integer m =>
    cases hb with
    | float hy => exact Or.inr rfl
    | integer n => exact Or.inl ⟨m, n, rfl, rfl⟩

include ha hb in
theorem order_swap : (order a b).swap = order b a := by
  rcases order_ranks ha hb with ⟨m, n, rfl, rfl⟩ | hranks
  · rw [order_integers, order_integers, ← Std.OrientedCmp.eq_swap]
  · rcases order_ranks hb ha with ⟨m, n, rfl, rfl⟩ | hranks'
    · rw [order_integers, order_integers, ← Std.OrientedCmp.eq_swap]
    · rw [hranks, hranks']
      exact cmp_swap (rank a) (rank b)

include ha hb in
/-- Numbers in order stand in order among the doubles. -/
theorem rank_le (h : order a b ≠ .gt) : rank a ≤ rank b := by
  rcases order_ranks ha hb with ⟨m, n, rfl, rfl⟩ | hranks
  · exact rank_mono (compare_le_iff_le.1 h)
  · rw [hranks] at h
    exact not_lt.1 fun hlt => h ((cmp_eq_gt_iff _ _).2 hlt)

include ha hb hc in
/-- **Order is passed on**, but for integers that share a double. -/
theorem le_trans_or_blurred (hab : order a b ≠ .gt) (hbc : order b c ≠ .gt) : order a c ≠ .gt ∨ Blurred a b c := by
  have hleft := rank_le ha hb hab
  have hright := rank_le hb hc hbc
  rcases order_ranks ha hc with ⟨m, n, rfl, rfl⟩ | hranks
  · rcases le_or_gt m.toInt n.toInt with hle | hlt
    · exact Or.inl (compare_le_iff_le.2 hle)
    · have hback := rank_mono hlt.le
      cases hb with
      | integer k =>
        -- integers are compared as they are
        have hmk : m.toInt ≤ k.toInt := compare_le_iff_le.1 hab
        have hkn : k.toInt ≤ n.toInt := compare_le_iff_le.1 hbc
        omega
      | float hx =>
        have hm := le_antisymm hleft (hright.trans hback)
        have hn := le_antisymm (hback.trans hleft) hright
        exact Or.inr (.intro hlt ((beq_iff (toDouble_isNaN m) hx).2 hm) ((beq_iff (toDouble_isNaN n) hx).2 hn))
  · refine Or.inl fun hgt => ?_
    rw [hranks] at hgt
    exact absurd (hleft.trans hright) (not_le.2 ((cmp_eq_gt_iff _ _).1 hgt))

include ha hb hc in
/-- Equality is passed on in the same way. -/
theorem eq_trans_or_blurred (hab : order a b = .eq) (hbc : order b c = .eq) :
    order a c = .eq ∨ Blurred a b c ∨ Blurred c b a := by
  have hba : order b a = .eq := by rw [← order_swap ha hb, hab]; rfl
  have hcb : order c b = .eq := by rw [← order_swap hb hc, hbc]; rfl
  rcases le_trans_or_blurred ha hb hc (by rw [hab]; decide) (by rw [hbc]; decide) with hac | hblurred
  · rcases le_trans_or_blurred hc hb ha (by rw [hcb]; decide) (by rw [hba]; decide) with hca | hblurred
    · left
      rw [← order_swap ha hc] at hca
      cases ho : order a c with
      | lt => rw [ho] at hca; exact absurd rfl hca
      | eq => rfl
      | gt => exact absurd ho hac
    · exact Or.inr (Or.inr hblurred)
  · exact Or.inr (Or.inl hblurred)

include hb in
/-- Where a float lies level with two integers, it is equal to both. -/
theorem Blurred.orders (h : Blurred a b c) : order a b = .eq ∧ order b c = .eq ∧ order a c = .gt := by
  cases h with
  | @intro m n x hlt hm hn =>
    cases hb with
    | float hx =>
      have hm' := (beq_iff (toDouble_isNaN m) hx).1 hm
      have hn' := (beq_iff (toDouble_isNaN n) hx).1 hn
      exact ⟨(cmp_eq_eq_iff _ _).2 hm', (cmp_eq_eq_iff _ _).2 hn'.symm, compare_gt_iff_gt.2 hlt⟩

/-- an integer of at most `2 ^ 53` in size, or any other value -/
def Small : Value → Prop
  | .integer n => |n.toInt| ≤ 2 ^ 53
  | _ => True

include hb in
/-- **One of the two integers is large.** -/
theorem not_blurred_of_small (hsmall : Small a) (hsmall' : Small c) : ¬ Blurred a b c := by
  rintro h
  cases h with
  | @intro m n x hlt hm hn =>
    cases hb with
    | float hx =>
      have hm' := (beq_iff (toDouble_isNaN m) hx).1 hm
      have hn' := (beq_iff (toDouble_isNaN n) hx).1 hn
      have heq := rank_injective hsmall hsmall' (hm'.trans hn'.symm)
      omega

end Chains

/-! ## The theorem -/

/-- **Comparisons order the numbers**, as far as integers and floats can be ordered by doubles. Every comparison of
numbers gives 1 or 0. Exactly one of `<`, `==` and `>` gives 1; `<=` is `<` or `==`, `!=` is the opposite of `==`, and
`>` is `<` with its operands exchanged. Both `<=` and `==` are passed on along `a`, `b`, `c`, but for the case that `a`
and `c` are different integers and `b` is a float that both become as doubles; and this needs an integer beyond
`2 ^ 53`. -/
theorem comparisons_ordered {a b c : Value} (ha : Numeric a) (hb : Numeric b) (hc : Numeric c) :
    (∀ op : BinaryOperator, op.isComparison = true →
      Value.binary op a b = .ok (.integer 1) ∨ Value.binary op a b = .ok (.integer 0)) ∧
    ((Yes .lt a b ∧ ¬ Yes .eq a b ∧ ¬ Yes .gt a b) ∨ (¬ Yes .lt a b ∧ Yes .eq a b ∧ ¬ Yes .gt a b) ∨
      (¬ Yes .lt a b ∧ ¬ Yes .eq a b ∧ Yes .gt a b)) ∧
    (Yes .le a b ↔ Yes .lt a b ∨ Yes .eq a b) ∧
    (Yes .ne a b ↔ ¬ Yes .eq a b) ∧
    (Yes .gt a b ↔ Yes .lt b a) ∧
    (Yes .le a b ∧ Yes .le b c ∧ ¬ Yes .le a c ↔ Blurred a b c) ∧
    (Yes .eq a b ∧ Yes .eq b c ∧ ¬ Yes .eq a c ↔ Blurred a b c ∨ Blurred c b a) ∧
    (Small a → Small c → ¬ Blurred a b c) := by
  simp only [yes_lt ha hb, yes_eq ha hb, yes_gt ha hb, yes_le ha hb, yes_ne ha hb, yes_lt hb ha, yes_le hb hc,
    yes_le ha hc, yes_eq hb hc, yes_eq ha hc]
  refine ⟨?_, ?_, ?_, trivial, ?_, ?_, ?_, not_blurred_of_small hb⟩
  · intro op hop
    rw [comparison_answers hop ha hb]
    cases Value.holds op (some (order a b)) with
    | true => exact Or.inl rfl
    | false => exact Or.inr rfl
  · cases order a b <;> decide
  · cases order a b <;> decide
  · rw [← order_swap ha hb]
    cases order a b <;> decide
  · constructor
    · rintro ⟨hab, hbc, hac⟩
      exact (le_trans_or_blurred ha hb hc hab hbc).resolve_left hac
    · intro h
      obtain ⟨hab, hbc, hac⟩ := h.orders hb
      rw [hab, hbc, hac]
      decide
  · constructor
    · rintro ⟨hab, hbc, hac⟩
      exact (eq_trans_or_blurred ha hb hc hab hbc).resolve_left hac
    · rintro (h | h)
      · obtain ⟨hab, hbc, hac⟩ := h.orders hb
        rw [hab, hbc, hac]
        decide
      · obtain ⟨hcb, hba, hca⟩ := h.orders hb
        rw [← order_swap hb ha, ← order_swap hc hb, ← order_swap hc ha, hba, hcb, hca]
        decide

/-- The integers `2 ^ 53 + 1` and `2 ^ 53` share a double. -/
theorem neighbours_blurred :
    Yes .le (.integer 9007199254740993) (.float 9007199254740992.0) ∧
      Yes .le (.float 9007199254740992.0) (.integer 9007199254740992) ∧
      ¬ Yes .le (.integer 9007199254740993) (.integer 9007199254740992) :=
  (comparisons_ordered (.integer 9007199254740993) (.float rfl)
    (.integer 9007199254740992)).2.2.2.2.2.1.2 (.intro (by decide) rfl rfl)

/-- **Comparing is not transitive**: an integer just above a float, and equal to it, is greater than one that the float
is equal to. -/
theorem comparing_not_transitive : ¬ ∀ a b c : Value, Numeric a → Numeric b → Numeric c →
    Yes .le a b → Yes .le b c → Yes .le a c := by
  intro h
  have hle := h (.integer 9007199254740993) (.float 9007199254740992.0) (.integer 9007199254740992) (.integer _)
    (.float rfl) (.integer _) rfl rfl
  exact absurd hle (by rw [yes_le (.integer _) (.integer _)]; decide)

end CurveScript.Comparing
