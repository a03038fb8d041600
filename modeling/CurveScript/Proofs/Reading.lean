/-
What readers take is a phrase.

A reader takes as much as it can: what is left never goes on with the phrase that was read (`Follows`). That is how the
tiers of a chain know that they are done, and why the body of a function reaches as far as possible.

Results, each for a reader whose inner readers keep a bound on the depth:
- `primary_sound`, `called_sound`, `power_sound`, `operand_sound`, `chain_sound`: what is taken is a phrase of the
  category with a depth below the bound, its chains and calls keep the height limit, and what is left follows it.
- `expression_sound`: so does the reader of whole expressions, with `maxDepth`. The induction is on the levels.
-/
import CurveScript.Proofs.Grammar
import CurveScript.Proofs.Readers

namespace CurveScript.Reading

open CurveScript.Parser CurveScript.Grammar CurveScript.Readers

/-! ## What may follow a phrase -/

/-- the tier and those that bind tighter -/
def tiersFrom : Tier → List Tier
  | .comparison => [.comparison, .sum, .product]
  | .sum => [.sum, .product]
  | .product => [.product]

/-- the token goes on with a phrase of the category -/
def Extends : Category → Token → Prop
  | .primary, _ => False
  | .called, t => t.kind = .leftParen
  | .power, t | .operand, t => t.kind = .leftParen ∨ t.kind = .symbol .caret
  | .chain tier, t => (t.kind = .leftParen ∨ t.kind = .symbol .caret) ∨
      ∃ tier' ∈ tiersFrom tier, operatorIn? tier'.operator? t ≠ none

/-- the tokens do not go on with a phrase of the category -/
def Stops (c : Category) (ts : List Token) : Prop := ∀ t, ts.head? = some t → ¬ Extends c t

/-- What may follow a phrase: nothing that goes on with it, and after a function nothing that goes on with its body. -/
def Follows (c : Category) (trailing : Bool) (ts : List Token) : Prop :=
  Stops c ts ∧ (trailing = true → Stops (.chain .comparison) ts)

theorem extends_chain (tier : Tier) (t : Token) :
    Extends (.chain tier) t ↔ Extends tier.below t ∨ operatorIn? tier.operator? t ≠ none := by
  cases tier <;> simp [Extends, Tier.below, tiersFrom] <;> tauto

theorem extends_comparison {c : Category} {t : Token} (h : Extends c t) : Extends (.chain .comparison) t := by
  cases c with
  | chain tier =>
    obtain h | ⟨tier', -, h⟩ := h
    · exact Or.inl h
    · exact Or.inr ⟨tier', by cases tier' <;> simp [tiersFrom], h⟩
  | primary => exact h.elim
  | called => exact Or.inl (Or.inl h)
  | power | operand => exact Or.inl h

theorem Stops.of_comparison {ts : List Token} (h : Stops (.chain .comparison) ts) (c : Category) : Stops c ts :=
  fun t ht hext => h t ht (extends_comparison hext)

theorem stops_nil (c : Category) : Stops c [] := by simp [Stops]

theorem stops_cons {c : Category} {t : Token} (ts : List Token) : Stops c (t :: ts) ↔ ¬ Extends c t := by
  simp [Stops]

/-- A closing parenthesis and a comma go on with nothing. -/
theorem stops_of_close {t : Token} (ts : List Token) (h : t.kind = .rightParen ∨ t.kind = .comma) (c : Category) :
    Stops c (t :: ts) := by
  refine Stops.of_comparison ?_ c
  rw [stops_cons]
  rcases h with h | h <;> simp [Extends, operatorIn?, h]

theorem follows_of_trailing {c : Category} {ts : List Token} (h : Stops (.chain .comparison) ts) (tr : Bool) :
    Follows c tr ts := ⟨h.of_comparison c, fun _ => h⟩

/-- A phrase before a token that goes on with expressions is not trailing. -/
theorem not_trailing {tr : Bool} {t : Token} {ts : List Token} (h : tr = true → Stops (.chain .comparison) (t :: ts))
    {c : Category} (hext : Extends c t) : tr = false := by
  cases tr with
  | false => rfl
  | true => exact absurd (extends_comparison hext) ((stops_cons ts).1 (h rfl))

/-- What is left after some tokens were taken is no longer than before. -/
theorem length_of_eq_append {ts used rest : List Token} (h : ts = used ++ rest) : rest.length ≤ ts.length := by
  rw [h, List.length_append]
  exact Nat.le_add_left _ _

/-- An operator of a tier goes on with no phrase below the tier. -/
theorem not_extends_below {tier : Tier} {t : Token} {op : BinaryOperator} (h : tier.Has t op) :
    ¬ Extends tier.below t := by
  obtain ⟨s, hs, hop⟩ := h
  cases tier <;> cases s <;> simp [Tier.operators] at hop <;>
    simp [Extends, Tier.below, tiersFrom, operatorIn?, hs, Tier.operator?, Symbol.additive?, Symbol.multiplicative?]

/-! ## Sound readers -/

/-- what the reader takes is a phrase of the category with a depth below the bound -/
def Sound (c : Category) (bound : Nat) (r : Reader Expr) : Prop :=
  ∀ ts e rest, bare (r ts) = .ok (e, rest) → ∃ tr n used, ts = used ++ rest ∧ Phrase c tr n used e ∧ n < bound ∧
    Capped e ∧ Follows c tr rest

theorem shallow_eq_ok {e tree : Expr} {at_ : Span} (h : shallow e at_ = .ok tree) : tree = e ∧ e.height ≤ maxDepth := by
  unfold shallow at h
  split_ifs at h with hheight
  cases h
  exact ⟨rfl, Nat.not_lt.1 hheight⟩

variable {stop bound : Nat} {inner : Reader Expr} {exponent : Span → Reader Expr}

/-! ### Lists in parentheses -/

theorem parametersRest_sound : ∀ (ts : List Token) {ps : List (String × Span)} {rest : List Token},
    bare (parametersRest stop ts) = .ok (ps, rest) → ∃ used, ts = used ++ rest ∧ ParameterTail used (ps.map Prod.fst)
  | [], ps, rest, h => by cases h
  | [t], ps, rest, h => by
    obtain ⟨_, _, s, heq, hkind⟩ := name_of_parametersRest stop h
    cases heq
    rw [bare_parametersRest_name stop [] hkind] at h
    cases h
  | t :: u :: ts, ps, rest, h => by
    obtain ⟨_, _, s, heq, hkind⟩ := name_of_parametersRest stop h
    cases heq
    rw [bare_parametersRest_name stop _ hkind, afterParameter] at h
    split at h
    · next hclose =>
      cases h
      exact ⟨[t, u], rfl, .last hkind hclose⟩
    · next hcomma =>
      obtain ⟨q, hq, h⟩ := bind_eq_ok h
      cases h
      obtain ⟨used, hused, htail⟩ := parametersRest_sound ts hq
      exact ⟨t :: u :: used, by rw [hused]; rfl, .more hkind hcomma htail⟩
    · cases h

theorem parameters_sound {ts : List Token} {ps : List (String × Span)} {rest : List Token}
    (h : bare (parameters stop ts) = .ok (ps, rest)) : ∃ used, ts = used ++ rest ∧ Parameters used (ps.map Prod.fst) := by
  cases ts with
  | nil => cases h
  | cons t ts =>
    by_cases hclose : t.kind = .rightParen
    · rw [bare_parameters_close stop ts hclose] at h
      cases h
      exact ⟨[t], rfl, .empty hclose⟩
    · rw [bare_parameters_open stop ts hclose] at h
      obtain ⟨used, hused, htail⟩ := parametersRest_sound (t :: ts) h
      exact ⟨used, hused, .some htail⟩

theorem argumentsRest_sound (hinner : Sound (.chain .comparison) bound inner) (ts : List Token) {es : List Expr}
    {close : Span} {rest : List Token} (h : bareList (argumentsRest stop inner ts) = .ok ((es, close), rest)) :
    ∃ n used, ts = used ++ rest ∧ ArgumentTail n used es close ∧ n < bound + 1 ∧ CappedAll es := by
  rw [bare_argumentsRest] at h
  obtain ⟨⟨e, rest₁⟩, hq, h⟩ := bind_eq_ok h
  obtain ⟨tr, n, used, hused, hphrase, hn, hcap, -⟩ := hinner _ _ _ hq
  cases rest₁ with
  | nil => cases h
  | cons t rest₁ =>
    simp only [afterArgument] at h
    split at h
    · next hclose =>
      cases h
      refine ⟨n + 1, used ++ [t], ?_, .last hphrase hclose, Nat.succ_lt_succ hn, ?_⟩
      · rw [hused, List.append_assoc]; rfl
      · simp only [CappedAll]; exact ⟨hcap, trivial⟩
    · next hcomma =>
      obtain ⟨⟨⟨es', close'⟩, rest₂⟩, hq', h⟩ := bind_eq_ok h
      cases h
      have hshort : rest₁.length < ts.length := by
        rw [hused, List.length_append, List.length_cons]; omega
      obtain ⟨m, used', hused', htail, hm, hcap'⟩ := argumentsRest_sound hinner rest₁ hq'
      refine ⟨max (n + 1) m, used ++ t :: used', ?_, .more hphrase hcomma htail, by omega, ?_⟩
      · rw [hused, hused', List.append_assoc]; rfl
      · simp only [CappedAll]; exact ⟨hcap, hcap'⟩
    · cases h
termination_by ts.length

theorem arguments_sound (hinner : Sound (.chain .comparison) bound inner) {ts : List Token} {es : List Expr}
    {close : Span} {rest : List Token} (h : bareList (arguments stop inner ts) = .ok ((es, close), rest)) :
    ∃ n used, ts = used ++ rest ∧ Arguments n used es close ∧ n < bound + 1 ∧ CappedAll es := by
  cases ts with
  | nil =>
    rw [arguments] at h
    obtain ⟨n, used, hused, htail, hn, hcap⟩ := argumentsRest_sound hinner [] h
    exact ⟨n, used, hused, .some htail, hn, hcap⟩
  | cons t ts =>
    by_cases hclose : t.kind = .rightParen
    · rw [bare_arguments_close stop inner ts hclose] at h
      cases h
      exact ⟨0, [t], rfl, .empty hclose, Nat.succ_pos _, by simp only [CappedAll]⟩
    · rw [bare_arguments_open stop inner ts hclose] at h
      obtain ⟨n, used, hused, htail, hn, hcap⟩ := argumentsRest_sound hinner (t :: ts) h
      exact ⟨n, used, hused, .some htail, hn, hcap⟩

/-! ### Primaries and calls -/

theorem parenthesised_sound (hinner : Sound (.chain .comparison) bound inner) {t : Token} (ht : t.kind = .leftParen)
    {ts : List Token} {e : Expr} {rest : List Token} (h : bare (parenthesised stop inner t.span ts) = .ok (e, rest)) :
    ∃ n used, t :: ts = used ++ rest ∧ Phrase .primary false n used e ∧ n < bound + 1 ∧ Capped e := by
  rw [bare_parenthesised] at h
  obtain ⟨⟨e', rest₁⟩, hq, h⟩ := bind_eq_ok h
  obtain ⟨tr, n, used, hused, hphrase, hn, hcap, -⟩ := hinner _ _ _ hq
  cases rest₁ with
  | nil => cases h
  | cons close rest₁ =>
    simp only [closeParen] at h
    split at h
    · next hclose =>
      cases h
      refine ⟨n + 1, t :: (used ++ [close]), ?_, .parenthesised ht hphrase hclose, Nat.succ_lt_succ hn, by simpa using hcap⟩
      rw [hused]; simp
    · cases h

theorem lambda_sound (hinner : Sound (.chain .comparison) bound inner) {t : Token} (ht : t.kind = .functionKeyword)
    {ts : List Token} {e : Expr} {rest : List Token} (h : bare (lambda stop inner t.span ts) = .ok (e, rest)) :
    ∃ n used, t :: ts = used ++ rest ∧ Phrase .primary true n used e ∧ n < bound + 1 ∧ Capped e ∧
      Stops (.chain .comparison) rest := by
  obtain ⟨lp, ts, rfl, hlp⟩ := open_of_lambda stop h
  rw [bare_lambda_open stop inner t.span ts hlp] at h
  obtain ⟨⟨ps, rest₁⟩, hq, h⟩ := bind_eq_ok h
  obtain ⟨used, hused, hparams⟩ := parameters_sound hq
  obtain ⟨names, hnames, h⟩ := bind_eq_ok h
  obtain ⟨hnodup, rfl⟩ := distinct_eq_ok.1 hnames
  cases rest₁ with
  | nil => cases h
  | cons arrow rest₁ =>
    simp only [afterParameters] at h
    split at h
    · next harrow =>
      obtain ⟨⟨body, rest₂⟩, hbody, h⟩ := bind_eq_ok h
      cases h
      obtain ⟨tr, n, used', hused', hphrase, hn, hcap, hfollows⟩ := hinner _ _ _ hbody
      refine ⟨n + 1, t :: lp :: (used ++ arrow :: used'), ?_, .lambda ht hlp hparams hnodup harrow hphrase,
        Nat.succ_lt_succ hn, by simpa only [Capped] using hcap, hfollows.1⟩
      rw [hused, hused']; simp
    · cases h

theorem primary_sound (hinner : Sound (.chain .comparison) bound inner) :
    Sound .primary (bound + 1) (primary stop inner) := by
  have hstops : ∀ rest : List Token, Follows .primary false rest := fun rest => ⟨fun t _ => id, by simp⟩
  intro ts e rest h
  cases ts with
  | nil => rw [bare_primary_nil] at h; cases h
  | cons t ts =>
    rw [bare_primary_cons, primaryAt] at h
    split at h
    · next hkind => cases h; exact ⟨false, 0, [t], rfl, .integer hkind, Nat.succ_pos _, by simp only [Capped], hstops _⟩
    · next hkind => cases h; exact ⟨false, 0, [t], rfl, .float hkind, Nat.succ_pos _, by simp only [Capped], hstops _⟩
    · next hkind => cases h; exact ⟨false, 0, [t], rfl, .name hkind, Nat.succ_pos _, by simp only [Capped], hstops _⟩
    · next hkind =>
      obtain ⟨n, used, hused, hphrase, hn, hcap⟩ := parenthesised_sound hinner hkind h
      exact ⟨false, n, used, hused, hphrase, hn, hcap, hstops _⟩
    · next hkind =>
      obtain ⟨n, used, hused, hphrase, hn, hcap, hrest⟩ := lambda_sound hinner hkind h
      exact ⟨true, n, used, hused, hphrase, hn, hcap, follows_of_trailing hrest true⟩
    · cases h

/-- The calls after a callee: a trailing callee has none, since what is left does not go on with it. -/
theorem callsRest_sound (hinner : Sound (.chain .comparison) bound inner) {tr : Bool} {n : Nat} {used : List Token}
    {f : Expr} (hf : Phrase .called tr n used f) (hn : n < bound + 1) (hcap : Capped f) (ts : List Token)
    (hts : tr = true → Stops (.chain .comparison) ts) {e : Expr} {rest : List Token}
    (h : bare (callsRest stop inner f ts) = .ok (e, rest)) :
    ∃ tr' n' used', ts = used' ++ rest ∧ Phrase .called tr' n' (used ++ used') e ∧ n' < bound + 1 ∧ Capped e ∧
      Follows .called tr' rest := by
  cases ts with
  | nil =>
    rw [bare_calls_nil] at h
    cases h
    exact ⟨tr, n, [], rfl, by rwa [List.append_nil], hn, hcap, stops_nil _, hts⟩
  | cons t ts =>
    by_cases hopen : t.kind = .leftParen
    · rw [bare_calls_step stop inner f ts hopen] at h
      obtain ⟨⟨⟨args, close⟩, rest₁⟩, hargs, h⟩ := bind_eq_ok h
      obtain ⟨tree, htree, h⟩ := bind_eq_ok h
      obtain ⟨rfl, hheight⟩ := shallow_eq_ok htree
      obtain ⟨m, used₁, hused₁, harguments, hm, hcap₁⟩ := arguments_sound hinner hargs
      -- the body of a function would have taken this parenthesis
      obtain rfl : tr = false := not_trailing (c := .called) hts hopen
      have hshort : rest₁.length < ts.length + 1 := Nat.lt_succ_of_le (length_of_eq_append hused₁)
      obtain ⟨tr', n', used', hused', hphrase, hn', hcap', hfollows⟩ := callsRest_sound hinner (.call hf hopen harguments)
        (by omega) (by simp only [Capped]; exact ⟨hcap, hcap₁, hheight⟩) rest₁ (by simp) h
      refine ⟨tr', n', t :: (used₁ ++ used'), ?_, ?_, hn', hcap', hfollows⟩
      · rw [hused₁, hused']; simp
      · simpa using hphrase
    · rw [bare_calls_stop stop inner f ts hopen] at h
      cases h
      exact ⟨tr, n, [], rfl, by rwa [List.append_nil], hn, hcap, (stops_cons ts).2 hopen, hts⟩
termination_by ts.length

theorem called_sound (hinner : Sound (.chain .comparison) bound inner) :
    Sound .called (bound + 1) (postfixed stop inner) := by
  intro ts e rest h
  rw [bare_postfixed] at h
  obtain ⟨⟨f, rest₁⟩, hf, h⟩ := bind_eq_ok h
  obtain ⟨tr, n, used, hused, hphrase, hn, hcap, hfollows⟩ := primary_sound hinner _ _ _ hf
  obtain ⟨tr', n', used', hused', hphrase', hn', hcap', hfollows'⟩ :=
    callsRest_sound hinner (.uncalled hphrase) hn hcap rest₁ hfollows.2 h
  exact ⟨tr', n', used ++ used', by rw [hused, hused', List.append_assoc], hphrase', hn', hcap', hfollows'⟩

/-! ### Powers and operands -/

theorem power_sound (hinner : Sound (.chain .comparison) bound inner)
    (hexponent : ∀ at_, Sound .operand bound (exponent at_)) : Sound .power (bound + 1) (power stop inner exponent) := by
  intro ts e rest h
  rw [bare_power] at h
  obtain ⟨⟨b, rest₁⟩, hb, h⟩ := bind_eq_ok h
  obtain ⟨tr, n, used, hused, hphrase, hn, hcap, hfollows⟩ := called_sound hinner _ _ _ hb
  cases rest₁ with
  | nil =>
    cases h
    exact ⟨tr, n, used, hused, .base hphrase, hn, hcap, stops_nil _, hfollows.2⟩
  | cons t rest₁ =>
    by_cases hcaret : t.kind = .symbol .caret
    · simp only [afterBase, hcaret] at h
      obtain ⟨⟨x, rest₂⟩, hx, h⟩ := bind_eq_ok h
      cases h
      obtain ⟨tr', m, used', hused', hphrase', hm, hcap', hfollows'⟩ := hexponent _ _ _ _ hx
      obtain rfl : tr = false := not_trailing (c := .power) hfollows.2 (Or.inr hcaret)
      refine ⟨tr', max n (m + 1), used ++ t :: used', ?_, .power hphrase hcaret hphrase', by omega, ?_, hfollows'⟩
      · rw [hused, hused', List.append_assoc]; rfl
      · simp only [operation, Capped]
        exact ⟨hcap, hcap', by simp⟩
    · simp only [afterBase_stop exponent b rest₁ hcaret] at h
      cases h
      refine ⟨tr, n, used, hused, .base hphrase, hn, hcap, (stops_cons rest₁).2 ?_, hfollows.2⟩
      rintro (hopen | hkind)
      · exact (stops_cons rest₁).1 hfollows.1 hopen
      · exact hcaret hkind

theorem operand_sound (hinner : Sound (.chain .comparison) bound inner)
    (hexponent : ∀ at_, Sound .operand bound (exponent at_)) : Sound .operand (bound + 1) (unary stop inner exponent) := by
  intro ts e rest h
  have hunsigned : bare (power stop inner exponent ts) = .ok (e, rest) → ∃ tr n used, ts = used ++ rest ∧
      Phrase .operand tr n used e ∧ n < bound + 1 ∧ Capped e ∧ Follows .operand tr rest := by
    intro h
    obtain ⟨tr, n, used, hused, hphrase, hn, hcap, hfollows⟩ := power_sound hinner hexponent _ _ _ h
    exact ⟨tr, n, used, hused, .unsigned hphrase, hn, hcap, hfollows⟩
  cases ts with
  | nil => rw [bare_unary_nil] at h; exact hunsigned h
  | cons t ts =>
    cases hop : prefixOperator? t with
    | none => rw [bare_unary_unsigned stop inner exponent ts hop] at h; exact hunsigned h
    | some op =>
      rw [bare_unary_signed stop inner exponent ts hop] at h
      obtain ⟨⟨x, rest₁⟩, hx, h⟩ := bind_eq_ok h
      cases h
      obtain ⟨tr, n, used, hused, hphrase, hn, hcap, hfollows⟩ := hexponent _ _ _ _ hx
      exact ⟨tr, n + 1, t :: used, by rw [hused]; rfl, .signed (prefixOperator?_iff.1 hop) hphrase, Nat.succ_lt_succ hn,
        by simpa only [Capped] using hcap, hfollows⟩

/-! ### Chains -/

/-- The rest of a chain: a trailing operand is the last one, since what is left does not go on with it. -/
theorem chainRest_sound {tier : Tier} {r : Reader Expr} (hr : Sound tier.below bound r) {tr : Bool} {n : Nat}
    {used : List Token} {l : Expr} (hl : Phrase (.chain tier) tr n used l) (hn : n < bound) (hcap : Capped l)
    (ts : List Token) (hts : Follows tier.below tr ts) {e : Expr} {rest : List Token}
    (h : bare (chainRest tier.operator? r l ts) = .ok (e, rest)) :
    ∃ tr' n' used', ts = used' ++ rest ∧ Phrase (.chain tier) tr' n' (used ++ used') e ∧ n' < bound ∧ Capped e ∧
      Follows (.chain tier) tr' rest := by
  cases ts with
  | nil =>
    rw [bare_chainRest_nil] at h
    cases h
    exact ⟨tr, n, [], rfl, by rwa [List.append_nil], hn, hcap, stops_nil _, hts.2⟩
  | cons t ts =>
    cases hop : operatorIn? tier.operator? t with
    | none =>
      rw [bare_chainRest_stop _ _ _ ts hop] at h
      cases h
      refine ⟨tr, n, [], rfl, by rwa [List.append_nil], hn, hcap, (stops_cons ts).2 ?_, hts.2⟩
      rw [extends_chain]
      rintro (hext | hne)
      · exact (stops_cons ts).1 hts.1 hext
      · exact hne hop
    | some op =>
      rw [bare_chainRest_step _ _ _ ts hop] at h
      obtain ⟨⟨x, rest₁⟩, hx, h⟩ := bind_eq_ok h
      obtain ⟨tree, htree, h⟩ := bind_eq_ok h
      obtain ⟨rfl, hheight⟩ := shallow_eq_ok htree
      obtain ⟨tr₁, m, used₁, hused₁, hphrase₁, hm, hcap₁, hfollows₁⟩ := hr _ _ _ hx
      have hext : Extends (.chain tier) t := (extends_chain tier t).2 (Or.inr (by simp [hop]))
      obtain rfl : tr = false := not_trailing hts.2 hext
      have hshort : rest₁.length < ts.length + 1 := Nat.lt_succ_of_le (length_of_eq_append hused₁)
      obtain ⟨tr', n', used', hused', hphrase, hn', hcap', hfollows⟩ := chainRest_sound hr
        (.chain hl (operatorIn?_iff.1 hop) hphrase₁) (by omega)
        (by simp only [operation, Capped]; exact ⟨hcap, hcap₁, fun _ => hheight⟩) rest₁ hfollows₁ h
      refine ⟨tr', n', t :: (used₁ ++ used'), ?_, ?_, hn', hcap', hfollows⟩
      · rw [hused₁, hused']; simp
      · simpa using hphrase
termination_by ts.length

theorem chain_sound {tier : Tier} {r : Reader Expr} (hr : Sound tier.below bound r) :
    Sound (.chain tier) bound (chain tier.operator? r) := by
  intro ts e rest h
  rw [bare_chain] at h
  obtain ⟨⟨l, rest₁⟩, hl, h⟩ := bind_eq_ok h
  obtain ⟨tr, n, used, hused, hphrase, hn, hcap, hfollows⟩ := hr _ _ _ hl
  obtain ⟨tr', n', used', hused', hphrase', hn', hcap', hfollows'⟩ :=
    chainRest_sound hr (.single hphrase) hn hcap rest₁ hfollows h
  exact ⟨tr', n', used ++ used', by rw [hused, hused', List.append_assoc], hphrase', hn', hcap', hfollows'⟩

theorem comparison_sound {r : Reader Expr} (hr : Sound .operand bound r) :
    Sound (.chain .comparison) bound (comparison r) :=
  have hproduct : Sound Tier.sum.below bound (chain Symbol.multiplicative? r) := @chain_sound _ .product _ hr
  have hsum : Sound Tier.comparison.below bound (chain Symbol.additive? (chain Symbol.multiplicative? r)) :=
    @chain_sound _ .sum _ hproduct
  @chain_sound _ .comparison _ hsum

/-! ## All levels -/

theorem operand_levels_sound (stop levels : Nat) : Sound .operand (levels + 1) (Parser.operand stop levels) := by
  induction levels with
  | zero => exact operand_sound (fun ts e rest h => by cases h) fun at_ ts e rest h => by cases h
  | succ levels ih => exact operand_sound (comparison_sound ih) fun _ => ih

/-- **What the reader of expressions takes is a comparison** of depth at most `maxDepth`, and what is left does not go
on with it. -/
theorem expression_sound (stop : Nat) : Sound (.chain .comparison) (maxDepth + 1) (expression stop) :=
  comparison_sound (operand_levels_sound stop maxDepth)

end CurveScript.Reading
