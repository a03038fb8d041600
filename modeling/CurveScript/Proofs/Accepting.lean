/-
Phrases are read as what they are.

A reader on a phrase returns the tree of the phrase, or stops at one of the two limits, and the phrase tells which: a
limit is met exactly if the depth is over the bound or some chain or call is too tall (`Within`). So no phrase ever gets
a syntax error.

Results, each for a reader whose inner readers keep a bound on the depth:
- `called_reads`, `chain_reads`: the loops over calls and over operators reach the end of a phrase with its tree.
- `primary_complete`, `called_complete`, `power_complete`, `operand_complete`, `chain_complete`: a reader takes a phrase
  of its category that is followed by nothing that goes on with it.
- `expression_complete`: so does the reader of whole expressions, with `maxDepth`. The induction is on the levels.
-/
import CurveScript.Proofs.Reading

namespace CurveScript.Accepting

open CurveScript.Parser CurveScript.Grammar CurveScript.Readers CurveScript.Reading

/-! ## Results within a limit -/

/-- If the limits are kept the first result is the second one, and else it is the error at a limit. -/
def Within {α : Type} (kept : Prop) (x y : Except ParseError α) : Prop :=
  (kept → x = y) ∧ (¬ kept → ∃ at_, x = .error (tooDeep at_))

namespace Within

variable {α β : Type} {kept kept' : Prop}

theorem of_kept {x y : Except ParseError α} (hkept : kept) (h : x = y) : Within kept x y :=
  ⟨fun _ => h, fun hnot => absurd hkept hnot⟩

theorem congr {x y : Except ParseError α} (h : Within kept x y) (hiff : kept ↔ kept') : Within kept' x y :=
  ⟨fun hkept => h.1 (hiff.2 hkept), fun hnot => h.2 fun hkept => hnot (hiff.1 hkept)⟩

theorem trans {x y z : Except ParseError α} (hxy : Within kept x y) (hyz : kept → Within kept' y z)
    (hless : kept' → kept) : Within kept' x z := by
  by_cases hkept : kept
  · rw [hxy.1 hkept]
    exact hyz hkept
  · exact ⟨fun h => absurd (hless h) hkept, fun _ => hxy.2 hkept⟩

theorem bind {x : Except ParseError α} {a : α} {f : α → Except ParseError β} {y : Except ParseError β}
    (hx : Within kept x (.ok a)) (hf : kept → Within kept' (f a) y) (hless : kept' → kept) : Within kept' (x >>= f) y := by
  by_cases hkept : kept
  · rw [hx.1 hkept]
    exact hf hkept
  · obtain ⟨at_, hat⟩ := hx.2 hkept
    rw [hat]
    exact ⟨fun h => absurd (hless h) hkept, fun _ => ⟨at_, rfl⟩⟩

end Within

theorem shallow_within (e : Expr) (at_ : Span) : Within (e.height ≤ maxDepth) (shallow e at_) (.ok e) := by
  unfold shallow
  constructor
  · intro hheight
    rw [if_neg (Nat.not_lt.2 hheight)]
  · intro hheight
    exact ⟨at_, if_pos (Nat.not_le.1 hheight)⟩

/-! ## Complete readers -/

/-- the reader takes phrases of the category with a depth below the bound, and stops at a limit on all other phrases -/
def Complete (c : Category) (bound : Nat) (r : Reader Expr) : Prop :=
  ∀ {tr : Bool} {n : Nat} {used : List Token} {e : Expr} (rest : List Token), Phrase c tr n used e → Follows c tr rest →
    Within (n < bound ∧ Capped e) (bare (r (used ++ rest))) (.ok (e, rest))

variable (stop : Nat) {bound : Nat} {inner : Reader Expr} {exponent : Span → Reader Expr}

/-! ### Lists in parentheses -/

theorem parameterTail_complete {used : List Token} {names : List String} (h : ParameterTail used names)
    (rest : List Token) : ∃ ps : List (String × Span), ps.map Prod.fst = names ∧
      bare (parametersRest stop (used ++ rest)) = .ok (ps, rest) := by
  induction h with
  | @last t close s ht hc =>
    refine ⟨[(s, t.span)], rfl, ?_⟩
    rw [List.cons_append, List.cons_append, bare_parametersRest_name stop _ ht]
    simp only [afterParameter, hc, List.nil_append]
  | @more t comma s ts names ht hc _ ih =>
    obtain ⟨ps, hps, hread⟩ := ih
    refine ⟨(s, t.span) :: ps, by rw [List.map_cons, hps], ?_⟩
    rw [List.cons_append, List.cons_append, bare_parametersRest_name stop _ ht]
    simp only [afterParameter, hc, hread, ok_bind]

theorem parameters_complete {used : List Token} {names : List String} (h : Parameters used names)
    (rest : List Token) : ∃ ps : List (String × Span), ps.map Prod.fst = names ∧
      bare (parameters stop (used ++ rest)) = .ok (ps, rest) := by
  cases h with
  | empty hc => exact ⟨[], rfl, bare_parameters_close stop rest hc⟩
  | some h =>
    obtain ⟨ps, hps, hread⟩ := parameterTail_complete stop h rest
    refine ⟨ps, hps, ?_⟩
    cases h with
    | last ht _ | more ht _ _ =>
      rw [List.cons_append, bare_parameters_open stop _ (by simp [ht])]
      exact hread

theorem argumentTail_complete (hinner : Complete (.chain .comparison) bound inner) {n : Nat} {used : List Token}
    {es : List Expr} {close : Span} (h : ArgumentTail n used es close) (rest : List Token) :
    Within (n < bound + 1 ∧ CappedAll es) (bareList (argumentsRest stop inner (used ++ rest)))
      (.ok ((es, close), rest)) := by
  induction h using ArgumentTail.induction with
  | @last tr n ts e t h ht =>
    have hfollows : Follows (.chain .comparison) tr (t :: rest) :=
      follows_of_trailing (stops_of_close rest (Or.inl ht) _) tr
    rw [List.append_assoc, List.singleton_append, bare_argumentsRest]
    refine (hinner (t :: rest) h hfollows).bind ?_ ?_
    · rintro ⟨hn, hcap⟩
      refine Within.of_kept ⟨Nat.succ_lt_succ hn, ?_⟩ ?_
      · simp only [CappedAll]; exact ⟨hcap, trivial⟩
      · simp only [afterArgument, ht]
    · rintro ⟨hn, hcap⟩
      simp only [CappedAll] at hcap
      exact ⟨Nat.lt_of_succ_lt_succ hn, hcap.1⟩
  | @more tr n m ts us e es close t h ht _ ih =>
    have hfollows : Follows (.chain .comparison) tr (t :: (us ++ rest)) :=
      follows_of_trailing (stops_of_close _ (Or.inr ht) _) tr
    rw [List.append_assoc, List.cons_append, bare_argumentsRest]
    refine (hinner _ h hfollows).bind ?_ ?_
    · rintro ⟨hn, hcap⟩
      simp only [afterArgument, ht]
      refine ih.bind ?_ ?_
      · rintro ⟨hm, hcaps⟩
        refine Within.of_kept ⟨by omega, ?_⟩ rfl
        simp only [CappedAll]; exact ⟨hcap, hcaps⟩
      · rintro ⟨hm, hcaps⟩
        simp only [CappedAll] at hcaps
        exact ⟨by omega, hcaps.2⟩
    · rintro ⟨hn, hcaps⟩
      simp only [CappedAll] at hcaps
      exact ⟨by omega, hcaps.1⟩

theorem arguments_complete (hinner : Complete (.chain .comparison) bound inner) {n : Nat} {used : List Token}
    {es : List Expr} {close : Span} (h : Arguments n used es close) (rest : List Token) :
    Within (n < bound + 1 ∧ CappedAll es) (bareList (arguments stop inner (used ++ rest)))
      (.ok ((es, close), rest)) := by
  cases h with
  | empty ht =>
    exact Within.of_kept ⟨Nat.succ_pos _, by simp only [CappedAll]⟩ (bare_arguments_close stop inner rest ht)
  | some h =>
    have htail := argumentTail_complete stop hinner h rest
    cases h with
    | last h _ | more h _ _ =>
      obtain ⟨t, us, rfl, hkind, -⟩ := h.starts
      rw [List.append_assoc, List.cons_append] at htail ⊢
      rw [bare_arguments_open stop inner _ hkind]
      exact htail

/-! ### Primaries and calls -/

theorem primary_complete (hinner : Complete (.chain .comparison) bound inner) :
    Complete .primary (bound + 1) (primary stop inner) := by
  intro tr n used e rest h hrest
  cases h with
  | integer ht =>
    rw [List.singleton_append, bare_primary_cons]
    refine Within.of_kept ⟨Nat.succ_pos _, by simp only [Capped]⟩ ?_
    simp only [primaryAt, ht]
  | float ht =>
    rw [List.singleton_append, bare_primary_cons]
    refine Within.of_kept ⟨Nat.succ_pos _, by simp only [Capped]⟩ ?_
    simp only [primaryAt, ht]
  | name ht =>
    rw [List.singleton_append, bare_primary_cons]
    refine Within.of_kept ⟨Nat.succ_pos _, by simp only [Capped]⟩ ?_
    simp only [primaryAt, ht]
  | @parenthesised tr n ts t close e ht h hc =>
    have hfollows : Follows (.chain .comparison) tr (close :: rest) :=
      follows_of_trailing (stops_of_close rest (Or.inl hc) _) tr
    rw [List.cons_append, bare_primary_cons]
    simp only [primaryAt, ht]
    rw [List.append_assoc, List.singleton_append, bare_parenthesised]
    refine (hinner _ h hfollows).bind ?_ ?_
    · rintro ⟨hn, hcap⟩
      refine Within.of_kept ⟨Nat.succ_lt_succ hn, by simpa using hcap⟩ ?_
      simp only [closeParen, hc]
    · rintro ⟨hn, hcap⟩
      exact ⟨Nat.lt_of_succ_lt_succ hn, by simpa using hcap⟩
  | @lambda tr n ps ts t lp arrow names body ht hl hp hd ha hb =>
    obtain ⟨found, hfound, hread⟩ := parameters_complete stop hp (arrow :: (ts ++ rest))
    have hdistinct : distinct found = .ok names := distinct_eq_ok.2 ⟨hd, hfound.symm⟩
    rw [List.cons_append, bare_primary_cons]
    simp only [primaryAt, ht]
    rw [List.cons_append, bare_lambda_open stop inner t.span _ hl, List.append_assoc, List.cons_append, hread]
    simp only [ok_bind, hdistinct, afterParameters, ha]
    -- what follows the function goes on with no expression, so the body ends where its phrase does
    refine (hinner rest hb (follows_of_trailing (hrest.2 rfl) tr)).bind ?_ ?_
    · rintro ⟨hn, hcap⟩
      exact Within.of_kept ⟨Nat.succ_lt_succ hn, by simpa only [Capped] using hcap⟩ rfl
    · rintro ⟨hn, hcap⟩
      simp only [Capped] at hcap
      exact ⟨Nat.lt_of_succ_lt_succ hn, hcap⟩

/-- The loop over calls comes to the end of a phrase with its tree. -/
theorem called_reads (hinner : Complete (.chain .comparison) bound inner) {tr : Bool} {n : Nat} {used : List Token}
    {e : Expr} : Phrase .called tr n used e → ∀ rest, (tr = true → Stops (.chain .comparison) rest) →
      Within (n < bound + 1 ∧ Capped e) (bare (postfixed stop inner (used ++ rest)))
        (bare (callsRest stop inner e rest))
  | .uncalled h => by
    intro rest hrest
    rw [bare_postfixed]
    refine (primary_complete stop hinner rest h ⟨fun _ _ => id, hrest⟩).bind ?_ id
    intro hkept
    exact Within.of_kept hkept rfl
  | @Phrase.call n m ts us t f args close hf ht ha => by
    intro rest _
    rw [List.append_assoc, List.cons_append]
    refine (called_reads hinner hf (t :: (us ++ rest)) (by simp)).trans ?_ ?_
    · rintro ⟨hn, hcap⟩
      rw [bare_calls_step stop inner f _ ht]
      refine (arguments_complete stop hinner ha rest).bind ?_ ?_
      · rintro ⟨hm, hcaps⟩
        refine (shallow_within _ _).bind ?_ ?_
        · intro hheight
          refine Within.of_kept ⟨by omega, ?_⟩ rfl
          simp only [Capped]; exact ⟨hcap, hcaps, hheight⟩
        · rintro ⟨-, hcap⟩
          simp only [Capped] at hcap
          exact hcap.2.2
      · rintro ⟨hnm, hcap⟩
        simp only [Capped] at hcap
        exact ⟨by omega, hcap.2.1⟩
    · rintro ⟨hnm, hcap⟩
      simp only [Capped] at hcap
      exact ⟨by omega, hcap.1⟩

theorem called_complete (hinner : Complete (.chain .comparison) bound inner) :
    Complete .called (bound + 1) (postfixed stop inner) := by
  intro tr n used e rest h hrest
  refine (called_reads stop hinner h rest hrest.2).trans (fun hkept => Within.of_kept hkept ?_) id
  cases rest with
  | nil => exact bare_calls_nil stop inner e
  | cons t rest => exact bare_calls_stop stop inner e rest ((stops_cons rest).1 hrest.1)

/-! ### Powers and operands -/

theorem power_complete (hinner : Complete (.chain .comparison) bound inner)
    (hexponent : ∀ at_, Complete .operand bound (exponent at_)) :
    Complete .power (bound + 1) (power stop inner exponent) := by
  intro tr n used e rest h hrest
  cases h with
  | base h =>
    have hstops : Stops .called rest := fun t ht hopen => hrest.1 t ht (Or.inl hopen)
    rw [bare_power]
    refine (called_complete stop hinner rest h ⟨hstops, hrest.2⟩).bind (fun hkept => Within.of_kept hkept ?_) id
    cases rest with
    | nil => rfl
    | cons t rest => exact afterBase_stop exponent e rest fun hcaret => (stops_cons rest).1 hrest.1 (Or.inr hcaret)
  | @power tr n m ts us t b e hb ht he =>
    have hstops : Follows .called false (t :: (us ++ rest)) := by
      refine ⟨(stops_cons _).2 ?_, by simp⟩
      simp [Extends, ht]
    rw [List.append_assoc, List.cons_append, bare_power]
    refine (called_complete stop hinner _ hb hstops).bind ?_ ?_
    · rintro ⟨hn, hcap⟩
      simp only [afterBase, ht]
      refine (hexponent b.span rest he hrest).bind ?_ ?_
      · rintro ⟨hm, hcap'⟩
        refine Within.of_kept ⟨by omega, ?_⟩ rfl
        simp only [operation, Capped]
        exact ⟨hcap, hcap', by simp⟩
      · rintro ⟨hnm, hcap⟩
        simp only [operation, Capped] at hcap
        exact ⟨by omega, hcap.2.1⟩
    · rintro ⟨hnm, hcap⟩
      simp only [operation, Capped] at hcap
      exact ⟨by omega, hcap.1⟩

theorem operand_complete (hinner : Complete (.chain .comparison) bound inner)
    (hexponent : ∀ at_, Complete .operand bound (exponent at_)) :
    Complete .operand (bound + 1) (unary stop inner exponent) := by
  intro tr n used e rest h hrest
  cases h with
  | unsigned h =>
    have hpower := power_complete stop hinner hexponent rest h hrest
    obtain ⟨t, us, rfl, -, hsign⟩ := h.starts
    rw [List.cons_append] at hpower ⊢
    rw [bare_unary_unsigned stop inner exponent _ (hsign rfl)]
    exact hpower
  | @signed tr n ts t op e ht h =>
    rw [List.cons_append, bare_unary_signed stop inner exponent _ (prefixOperator?_iff.2 ht)]
    refine (hexponent t.span rest h hrest).bind ?_ ?_
    · rintro ⟨hn, hcap⟩
      exact Within.of_kept ⟨Nat.succ_lt_succ hn, by simpa only [Capped] using hcap⟩ rfl
    · rintro ⟨hn, hcap⟩
      simp only [Capped] at hcap
      exact ⟨Nat.lt_of_succ_lt_succ hn, hcap⟩

/-! ### Chains -/

/-- The loop over the operators of a tier comes to the end of a phrase with its tree. -/
theorem chain_reads {tier : Tier} {r : Reader Expr} (hr : Complete tier.below bound r) {tr : Bool} {n : Nat}
    {used : List Token} {e : Expr} : Phrase (.chain tier) tr n used e → ∀ rest, Follows tier.below tr rest →
      Within (n < bound ∧ Capped e) (bare (chain tier.operator? r (used ++ rest)))
        (bare (chainRest tier.operator? r e rest))
  | .single h => by
    intro rest hrest
    rw [bare_chain]
    refine (hr rest h hrest).bind ?_ id
    intro hkept
    exact Within.of_kept hkept rfl
  | @Phrase.chain tier tr n m ts us t op l x hl ht hx => by
    intro rest hrest
    have hstops : Follows tier.below false (t :: (us ++ rest)) := ⟨(stops_cons _).2 (not_extends_below ht), by simp⟩
    rw [List.append_assoc, List.cons_append]
    refine (chain_reads hr hl (t :: (us ++ rest)) hstops).trans ?_ ?_
    · rintro ⟨hn, hcap⟩
      rw [bare_chainRest_step _ _ _ _ (operatorIn?_iff.2 ht)]
      refine (hr rest hx hrest).bind ?_ ?_
      · rintro ⟨hm, hcap'⟩
        refine (shallow_within _ _).bind ?_ ?_
        · intro hheight
          refine Within.of_kept ⟨by omega, ?_⟩ rfl
          simp only [operation, Capped]
          exact ⟨hcap, hcap', fun _ => hheight⟩
        · rintro ⟨-, hcap⟩
          simp only [operation, Capped] at hcap
          exact hcap.2.2 ht.ne_pow
      · rintro ⟨hnm, hcap⟩
        simp only [operation, Capped] at hcap
        exact ⟨by omega, hcap.2.1⟩
    · rintro ⟨hnm, hcap⟩
      simp only [operation, Capped] at hcap
      exact ⟨by omega, hcap.1⟩

theorem chain_complete {tier : Tier} {r : Reader Expr} (hr : Complete tier.below bound r) :
    Complete (.chain tier) bound (chain tier.operator? r) := by
  intro tr n used e rest h hrest
  have hbelow : Stops tier.below rest := fun t ht hext => hrest.1 t ht ((extends_chain tier t).2 (Or.inl hext))
  refine (chain_reads hr h rest ⟨hbelow, hrest.2⟩).trans (fun hkept => Within.of_kept hkept ?_) id
  cases rest with
  | nil => exact bare_chainRest_nil _ _ e
  | cons t rest =>
    have hnone : operatorIn? tier.operator? t = none := by
      by_contra hop
      exact (stops_cons rest).1 hrest.1 ((extends_chain tier t).2 (Or.inr hop))
    exact bare_chainRest_stop _ _ e rest hnone

theorem comparison_complete {r : Reader Expr} (hr : Complete .operand bound r) :
    Complete (.chain .comparison) bound (comparison r) := by
  have hproduct : Complete Tier.sum.below bound (chain Symbol.multiplicative? r) := @chain_complete _ .product _ hr
  have hsum : Complete Tier.comparison.below bound (chain Symbol.additive? (chain Symbol.multiplicative? r)) :=
    @chain_complete _ .sum _ hproduct
  exact @chain_complete _ .comparison _ hsum

/-! ## All levels -/

/-- A reader that may enter no level meets the limit on every phrase. -/
theorem complete_zero (c : Category) {r : Reader Expr} (h : ∀ ts, ∃ at_, r ts = .error (tooDeep at_)) :
    Complete c 0 r := by
  intro tr n used e rest _ _
  obtain ⟨at_, hat⟩ := h (used ++ rest)
  rw [hat]
  exact ⟨fun hkept => absurd hkept.1 (Nat.not_lt_zero n), fun _ => ⟨at_, rfl⟩⟩

theorem operand_levels_complete (stop levels : Nat) :
    Complete .operand (levels + 1) (Parser.operand stop levels) := by
  induction levels with
  | zero =>
    refine operand_complete stop (complete_zero _ ?_) fun at_ => complete_zero _ ?_
    · intro ts
      exact ⟨nextSpan stop ts, rfl⟩
    · intro ts
      exact ⟨at_, rfl⟩
  | succ levels ih => exact operand_complete stop (comparison_complete ih) fun _ => ih

/-- **The reader of expressions takes every comparison** of depth at most `maxDepth` whose chains and calls keep the
limit, if nothing goes on with it, and on any other comparison it stops at a limit. -/
theorem expression_complete (stop : Nat) : Complete (.chain .comparison) (maxDepth + 1) (expression stop) :=
  comparison_complete (operand_levels_complete stop maxDepth)

end CurveScript.Accepting
