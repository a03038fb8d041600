/-
How tall the trees of accepted statements get.

Two mechanisms bound them. The links of chains and calls are built only up to the height `maxDepth`. Prefix operators,
powers and functions take a level when they are entered, but nothing looks at the height of their trees. So each of them
may still stand on top of a tree that has the full height already, as often as there are levels.

Results:
- `overtopped_iff`: in a tree with short chains and calls, only such a node at the root passes the limit.
- `accepted_heights`: an accepted tree is at most `maxDepth` and its own depth tall, and passes the limit exactly if its
  root is overtopped. A tree over the limit gets the error at a limit if it nests too deep or has a tall chain or call,
  and is accepted otherwise.
- `thunks_accepted`: the bound is met at every depth, so accepted trees reach twice the limit.
Witnesses:
- `negatedSum_accepted`: a sum of the full height in parentheses, with a sign before it.
- `negatedSum_overtopped`: the sign is what passes the limit there.
-/
import CurveScript.Proofs.Sentences

namespace CurveScript.Nesting

open CurveScript.Parser CurveScript.Statement CurveScript.Grammar CurveScript.Accepting CurveScript.Sentences

/-! ## Nodes that no reader measures -/

/-- the root is a prefix operator, a power or a function, and stands on a tree of the full height -/
def Overtopped : Expr → Prop
  | .unary _ _ e | .lambda _ _ e => maxDepth ≤ e.height
  | .binary _ op l r => op = .pow ∧ maxDepth ≤ max l.height r.height
  | .integer _ _ | .float _ _ | .var _ _ | .call _ _ _ => False

theorem overtopped_iff {e : Expr} (h : Capped e) : maxDepth < e.height ↔ Overtopped e := by
  cases e with
  | integer | float | var => simp [Overtopped, Expr.height, maxDepth]
  | unary s op e | lambda s ps e =>
    simp only [Overtopped, Expr.height]
    omega
  | call s f args =>
    simp only [Capped] at h
    simp only [Overtopped, iff_false]
    exact Nat.not_lt.2 h.2.2
  | binary s op l r =>
    simp only [Capped] at h
    simp only [Overtopped]
    by_cases hop : op = .pow
    · simp only [hop, true_and, Expr.height]
      omega
    · simp only [hop, false_and, iff_false]
      exact Nat.not_lt.2 (h.2.2 hop)

theorem sentence_height_le {n : Nat} {ts : List Token} {k : StatementKind} (h : Sentence n ts k) :
    ∀ e ∈ tree? k, Capped e → e.height ≤ maxDepth + n := by
  intro e he hcap
  cases h with
  | empty => cases he
  | assign _ _ h | define _ _ _ _ _ h | evaluate h =>
    cases he
    exact (h.height_le hcap).1

/-- **What the limits keep.** An accepted tree is taller than `maxDepth` by no more than its depth, and is taller at all
exactly if a prefix operator, a power or a function at its root stands on a tree of the full height. A statement whose
tree is too tall gets the error at a limit exactly if it nests too deep or has a chain or call over the limit. -/
theorem accepted_heights (ts : List Token) (stop : Nat) :
    (∀ s, parse ts stop = .ok s → ∀ e ∈ tree? s.kind, Capped e ∧ (maxDepth < e.height ↔ Overtopped e) ∧
      ∃ n, n ≤ maxDepth ∧ Sentence n ts s.kind ∧ e.height ≤ maxDepth + n) ∧
    (∀ n k, Sentence n ts k → ∀ e ∈ tree? k, maxDepth < e.height →
      ((∃ at_, parse ts stop = .error (tooDeep at_)) ↔ maxDepth < n ∨ ¬ Capped e) ∧
      (parse ts stop = .ok ⟨k, extent stop ts⟩ ↔ n ≤ maxDepth ∧ Capped e)) := by
  refine ⟨?_, ?_⟩
  · intro s hs e he
    obtain ⟨-, n, hsentence, hn, hcap⟩ := parse_sound hs
    exact ⟨hcap e he, overtopped_iff (hcap e he), n, hn, hsentence, sentence_height_le hsentence e he (hcap e he)⟩
  · intro n k hsentence e he _
    have hkept : Kept n k ↔ n ≤ maxDepth ∧ Capped e := by
      refine and_congr_right fun _ => ⟨fun hcap => hcap e he, ?_⟩
      intro hcap e' he'
      rw [Option.mem_unique he' he]
      exact hcap
    have hparse := (parse_complete hsentence stop).congr hkept
    by_cases hfits : n ≤ maxDepth ∧ Capped e
    · refine ⟨⟨?_, ?_⟩, fun _ => hfits, fun _ => hparse.1 hfits⟩
      · rintro ⟨at_, hat⟩
        rw [hparse.1 hfits] at hat
        cases hat
      · rintro (hn | hcap)
        · exact absurd hfits.1 (Nat.not_le.2 hn)
        · exact absurd hfits.2 hcap
    · obtain ⟨at_, hat⟩ := hparse.2 hfits
      refine ⟨⟨fun _ => ?_, fun _ => ⟨at_, hat⟩⟩, ?_, fun h => absurd h hfits⟩
      · by_cases hn : n ≤ maxDepth
        · exact Or.inr fun hcap => hfits ⟨hn, hcap⟩
        · exact Or.inl (Nat.not_le.1 hn)
      · intro hok
        rw [hat] at hok
        cases hok

/-! ## Sums of the full height -/

/-- the sum of `links + 1` ones, from the position on -/
def sum (at_ : Nat) : Nat → List Token
  | 0 => [tokenAt at_ (.number (.integer 1))]
  | links + 1 => sum at_ links ++
      [tokenAt (at_ + 2 * links + 1) (.symbol .plus), tokenAt (at_ + 2 * links + 2) (.number (.integer 1))]

/-- the tree of the sum -/
def sumTree (at_ : Nat) : Nat → Expr
  | 0 => .integer (tokenAt at_ .comma).span 1
  | links + 1 => operation .add (sumTree at_ links) (.integer (tokenAt (at_ + 2 * links + 2) .comma).span 1)

theorem sum_phrase (at_ links : Nat) : Phrase (.chain .sum) false 0 (sum at_ links) (sumTree at_ links) := by
  induction links with
  | zero => exact Phrase.ofOperand (.unsigned (.base (.uncalled (.integer rfl)))) .sum
  | succ links ih =>
    have hone : Phrase (.chain .product) false 0 [tokenAt (at_ + 2 * links + 2) (.number (.integer 1))]
        (.integer (tokenAt (at_ + 2 * links + 2) .comma).span 1) :=
      Phrase.ofOperand (.unsigned (.base (.uncalled (.integer rfl)))) .product
    have hplus : Tier.sum.Has (tokenAt (at_ + 2 * links + 1) (.symbol .plus)) .add := ⟨.plus, rfl, by decide⟩
    exact .chain ih hplus hone

theorem height_sumTree (at_ links : Nat) : (sumTree at_ links).height = links + 1 := by
  induction links with
  | zero => simp [sumTree, Expr.height]
  | succ links ih =>
    simp only [sumTree, operation, Expr.height, ih]
    omega

/-- The chains of a sum keep the limit as long as the sum does. -/
theorem capped_sumTree {at_ links : Nat} (h : links < maxDepth) : Capped (sumTree at_ links) :=
  capped_of_height_le (by rw [height_sumTree]; exact h)

/-! ### Functions around a sum -/

/-- `count` functions without parameters around the tokens -/
def thunks (body : List Token) : Nat → List Token
  | 0 => body
  | count + 1 => tokenAt 0 .functionKeyword :: tokenAt 0 .leftParen :: ([tokenAt 0 .rightParen] ++
      tokenAt 0 (.symbol .arrow) :: thunks body count)

/-- Functions need a level each, and their trees grow with them. -/
theorem thunks_phrase {body : List Token} {e : Expr} (hbody : Phrase (.chain .comparison) false 0 body e)
    (hcap : Capped e) (count : Nat) : ∃ tr tree, Phrase (.chain .comparison) tr count (thunks body count) tree ∧
      Capped tree ∧ tree.height = e.height + count := by
  induction count with
  | zero => exact ⟨false, e, hbody, hcap, rfl⟩
  | succ count ih =>
    obtain ⟨tr, tree, hphrase, hcap', hheight⟩ := ih
    have hparams : Parameters [tokenAt 0 .rightParen] [] := .empty rfl
    have hopen : (tokenAt 0 .leftParen).kind = .leftParen := rfl
    have harrow : (tokenAt 0 (.symbol .arrow)).kind = .symbol .arrow := rfl
    have hthunk := Phrase.lambda (t := tokenAt 0 .functionKeyword) rfl hopen hparams List.nodup_nil harrow hphrase
    refine ⟨true, _, Phrase.ofOperand (.unsigned (.base (.uncalled hthunk))) .comparison, ?_, ?_⟩
    · simp only [Capped]
      exact hcap'
    · simp only [Expr.height, hheight]
      omega

/-- **Every level may add one to the limit.** At each depth that is allowed there is an accepted statement whose tree
is that much over the limit. -/
theorem thunks_accepted (stop : Nat) {count : Nat} (h : count ≤ maxDepth) :
    ∃ e, parse (thunks (sum 0 (maxDepth - 1)) count) stop = .ok ⟨.evaluate e, extent stop (thunks (sum 0 (maxDepth - 1)) count)⟩ ∧
      e.height = maxDepth + count := by
  have hcap : Capped (sumTree 0 (maxDepth - 1)) := capped_sumTree (by decide)
  obtain ⟨tr, tree, hphrase, hcap', hheight⟩ := thunks_phrase (.single (sum_phrase 0 (maxDepth - 1))) hcap count
  have hkept : Kept count (.evaluate tree) := ⟨h, by simpa [tree?] using hcap'⟩
  refine ⟨tree, (parse_complete (.evaluate hphrase) stop).1 hkept, ?_⟩
  rw [hheight, height_sumTree]
  rfl

/-! ### A sign before a sum -/

/-- `-(1+1+…+1)` with 200 ones -/
def negatedSum : List Token :=
  tokenAt 0 (.symbol .minus) :: tokenAt 1 .leftParen :: (sum 2 199 ++ [tokenAt 401 .rightParen])

/-- the tree of `negatedSum` -/
def negatedSumTree : Expr := .unary ⟨0, 402⟩ .negate ((sumTree 2 199).withSpan ⟨1, 402⟩)

theorem span_withSpan (s : Span) (e : Expr) : (e.withSpan s).span = s := by
  cases e <;> rfl

theorem negatedSum_sentence : Sentence 2 negatedSum (.evaluate negatedSumTree) := by
  have hclose : (tokenAt 401 .rightParen).kind = .rightParen := rfl
  have hparens := Phrase.parenthesised (t := tokenAt 1 .leftParen) rfl (.single (sum_phrase 2 199)) hclose
  have hminus : Signs (tokenAt 0 (.symbol .minus)) .negate := ⟨.minus, rfl, by decide⟩
  have hsigned := Phrase.signed hminus (.unsigned (.base (.uncalled hparens)))
  rw [span_withSpan] at hsigned
  exact .evaluate (hsigned.ofOperand .comparison)

theorem height_negatedSumTree : negatedSumTree.height = 201 := by
  simp [negatedSumTree, Expr.height, height_sumTree]

theorem capped_negatedSumTree : Capped negatedSumTree := by
  simp only [negatedSumTree, Capped, capped_withSpan]
  exact capped_sumTree (by decide)

theorem parse_negatedSum : parse negatedSum 402 = .ok ⟨.evaluate negatedSumTree, ⟨0, 402⟩⟩ := by
  have hextent : extent 402 negatedSum = ⟨0, 402⟩ := by
    rw [negatedSum, extent, ← List.cons_append, ← List.cons_append, List.getLastD_concat]
    rfl
  have hkept : Kept 2 (.evaluate negatedSumTree) := ⟨by decide, by simpa [tree?] using capped_negatedSumTree⟩
  rw [← hextent]
  exact (parse_complete negatedSum_sentence 402).1 hkept

/-- **A tree over the limit that is accepted**: the sum has the full height, and the sign before it is not measured. -/
theorem negatedSum_accepted :
    parse negatedSum 402 = .ok ⟨.evaluate negatedSumTree, ⟨0, 402⟩⟩ ∧ maxDepth < negatedSumTree.height := by
  refine ⟨parse_negatedSum, ?_⟩
  rw [height_negatedSumTree]
  decide

/-- What passes the limit there is the sign at the root. -/
theorem negatedSum_overtopped : Overtopped negatedSumTree := by
  have hheight : maxDepth < negatedSumTree.height := by
    rw [height_negatedSumTree]
    decide
  exact ((accepted_heights negatedSum 402).1 _ parse_negatedSum _ rfl).2.1.1 hheight

end CurveScript.Nesting
