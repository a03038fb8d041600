/-
The grammar of statements.

A phrase is a list of tokens with the tree that it stands for. Its categories are the chains of operators from the
loosest tier to the tightest, operands with prefix operators, powers, calls and primaries. The relations say nothing of
how tokens are read: they have no rest, no limit and no order of trials, and they list the symbols of each tier
themselves.

Two indices come with every phrase. `trailing` tells that it ends in the body of a function: such a body extends as far
to the right as possible, so a trailing phrase is no callee, no base of a power and no left operand. `depth` is the
greatest number of parentheses, argument lists, prefix operators, exponents and function bodies that enclose one point.

Results:
- `operatorIn?_iff`, `prefixOperator?_iff`: the parser's tables have the operators of the grammar.
- `Phrase.starts`: what a phrase starts with, so that a reader may decide by one token.
- `Phrase.no_assign`: no phrase has an assignment sign, so that a statement is an assignment, a definition or a phrase.
- `Phrase.height_le`: a tree whose chains and calls are no taller than the limit is at most `depth` taller itself.
-/
import CurveScript.Statement
import Mathlib.Tactic.Tauto
import Mathlib.Data.List.Nodup

namespace CurveScript.Grammar

open CurveScript.Parser

/-! ## Phrases -/

/-- the tiers of binary operators that group from the left, loosest first -/
inductive Tier where
  | comparison
  | sum
  | product

/-- the categories of phrases -/
inductive Category where
  | chain (tier : Tier)
  /-- an operand with its prefix operators -/
  | operand
  | power
  /-- a primary with the calls after it -/
  | called
  | primary

/-- the symbols of a tier, with the operators that they stand for -/
def Tier.operators : Tier → List (Symbol × BinaryOperator)
  | comparison => [(.eq, .eq), (.ne, .ne), (.lt, .lt), (.le, .le), (.gt, .gt), (.ge, .ge)]
  | sum => [(.plus, .add), (.minus, .sub)]
  | product => [(.star, .mul), (.slash, .div), (.percent, .rem)]

/-- the symbols before an operand, with the operators that they stand for -/
def signs : List (Symbol × UnaryOperator) := [(.minus, .negate), (.plus, .plus)]

/-- the token is an operator of the tier -/
def Tier.Has (tier : Tier) (t : Token) (op : BinaryOperator) : Prop :=
  ∃ s, t.kind = .symbol s ∧ (s, op) ∈ tier.operators

/-- the token is a prefix operator -/
def Signs (t : Token) (op : UnaryOperator) : Prop := ∃ s, t.kind = .symbol s ∧ (s, op) ∈ signs

/-- what the operators of a tier stand between -/
def Tier.below : Tier → Category
  | comparison => .chain .sum
  | sum => .chain .product
  | product => .operand

/-- the names of a parameter list, from after `(` or a comma through `)` -/
inductive ParameterTail : List Token → List String → Prop where
  | last {t close : Token} {s : String} (ht : t.kind = .name s) (hc : close.kind = .rightParen) :
      ParameterTail [t, close] [s]
  | more {t comma : Token} {s : String} {ts : List Token} {names : List String} (ht : t.kind = .name s)
      (hc : comma.kind = .comma) (h : ParameterTail ts names) : ParameterTail (t :: comma :: ts) (s :: names)

/-- the names of a parameter list, from after `(` through `)` -/
inductive Parameters : List Token → List String → Prop where
  | empty {close : Token} (hc : close.kind = .rightParen) : Parameters [close] []
  | some {ts : List Token} {names : List String} (h : ParameterTail ts names) : Parameters ts names

mutual

/-- the tokens are a phrase of the category, and stand for the tree -/
inductive Phrase : Category → (trailing : Bool) → (depth : Nat) → List Token → Expr → Prop where
  /-- a chain of one operand -/
  | single {tier : Tier} {tr : Bool} {n : Nat} {ts : List Token} {e : Expr} (h : Phrase tier.below tr n ts e) :
      Phrase (.chain tier) tr n ts e
  /-- a longer chain, grouped from the left -/
  | chain {tier : Tier} {tr : Bool} {n m : Nat} {ts us : List Token} {t : Token} {op : BinaryOperator} {l r : Expr}
      (hl : Phrase (.chain tier) false n ts l) (ht : tier.Has t op)
      (hr : Phrase tier.below tr m us r) :
      Phrase (.chain tier) tr (max n m) (ts ++ t :: us) (operation op l r)
  | unsigned {tr : Bool} {n : Nat} {ts : List Token} {e : Expr} (h : Phrase .power tr n ts e) : Phrase .operand tr n ts e
  | signed {tr : Bool} {n : Nat} {ts : List Token} {t : Token} {op : UnaryOperator} {e : Expr}
      (ht : Signs t op) (h : Phrase .operand tr n ts e) :
      Phrase .operand tr (n + 1) (t :: ts) (.unary (t.span.cover e.span) op e)
  | base {tr : Bool} {n : Nat} {ts : List Token} {e : Expr} (h : Phrase .called tr n ts e) : Phrase .power tr n ts e
  | power {tr : Bool} {n m : Nat} {ts us : List Token} {t : Token} {b e : Expr} (hb : Phrase .called false n ts b)
      (ht : t.kind = .symbol .caret) (he : Phrase .operand tr m us e) :
      Phrase .power tr (max n (m + 1)) (ts ++ t :: us) (operation .pow b e)
  | uncalled {tr : Bool} {n : Nat} {ts : List Token} {e : Expr} (h : Phrase .primary tr n ts e) : Phrase .called tr n ts e
  | call {n m : Nat} {ts us : List Token} {t : Token} {f : Expr} {args : List Expr} {close : Span}
      (hf : Phrase .called false n ts f) (ht : t.kind = .leftParen) (ha : Arguments m us args close) :
      Phrase .called false (max n m) (ts ++ t :: us) (.call (f.span.cover close) f args)
  | integer {t : Token} {i : Int64} (ht : t.kind = .number (.integer i)) : Phrase .primary false 0 [t] (.integer t.span i)
  | float {t : Token} {x : Float} (ht : t.kind = .number (.float x)) : Phrase .primary false 0 [t] (.float t.span x)
  | name {t : Token} {s : String} (ht : t.kind = .name s) : Phrase .primary false 0 [t] (.var t.span s)
  | parenthesised {tr : Bool} {n : Nat} {ts : List Token} {t close : Token} {e : Expr} (ht : t.kind = .leftParen)
      (h : Phrase (.chain .comparison) tr n ts e) (hc : close.kind = .rightParen) :
      Phrase .primary false (n + 1) (t :: (ts ++ [close])) (e.withSpan (t.span.cover close.span))
  /-- The body is a whole comparison, and the phrase is trailing whatever the body is. -/
  | lambda {tr : Bool} {n : Nat} {ps ts : List Token} {t lp arrow : Token} {names : List String} {body : Expr}
      (ht : t.kind = .functionKeyword) (hl : lp.kind = .leftParen) (hp : Parameters ps names) (hd : names.Nodup)
      (ha : arrow.kind = .symbol .arrow) (hb : Phrase (.chain .comparison) tr n ts body) :
      Phrase .primary true (n + 1) (t :: lp :: (ps ++ arrow :: ts)) (.lambda (t.span.cover body.span) names body)

/-- the arguments of a call, from after `(` through the `)` at `close` -/
inductive Arguments : (depth : Nat) → List Token → List Expr → (close : Span) → Prop where
  | empty {t : Token} (ht : t.kind = .rightParen) : Arguments 0 [t] [] t.span
  | some {n : Nat} {ts : List Token} {es : List Expr} {close : Span} (h : ArgumentTail n ts es close) :
      Arguments n ts es close

/-- the arguments of a call, from after `(` or a comma through the `)` at `close` -/
inductive ArgumentTail : (depth : Nat) → List Token → List Expr → (close : Span) → Prop where
  | last {tr : Bool} {n : Nat} {ts : List Token} {t : Token} {e : Expr} (h : Phrase (.chain .comparison) tr n ts e)
      (ht : t.kind = .rightParen) : ArgumentTail (n + 1) (ts ++ [t]) [e] t.span
  | more {tr : Bool} {n m : Nat} {ts us : List Token} {t : Token} {e : Expr} {es : List Expr} {close : Span}
      (h : Phrase (.chain .comparison) tr n ts e) (ht : t.kind = .comma) (hs : ArgumentTail m us es close) :
      ArgumentTail (max (n + 1) m) (ts ++ t :: us) (e :: es) close

end

/-- Arguments one after the other, with nothing said inside them. -/
@[elab_as_elim] theorem ArgumentTail.induction
    {motive : ∀ (n : Nat) (ts : List Token) (es : List Expr) (close : Span), ArgumentTail n ts es close → Prop}
    (last : ∀ {tr n ts e} {t : Token} (h : Phrase (.chain .comparison) tr n ts e) (ht : t.kind = .rightParen),
      motive _ _ _ _ (.last h ht))
    (more : ∀ {tr n m ts us e es close} {t : Token} (h : Phrase (.chain .comparison) tr n ts e) (ht : t.kind = .comma)
      (hs : ArgumentTail m us es close), motive m us es close hs → motive _ _ _ _ (.more h ht hs))
    {n : Nat} {ts : List Token} {es : List Expr} {close : Span} : ∀ h : ArgumentTail n ts es close,
      motive n ts es close h
  | .last h ht => last h ht
  | .more h ht hs => more h ht hs (hs.induction last more)

/-- the tokens are a statement of the kind -/
inductive Sentence : (depth : Nat) → List Token → StatementKind → Prop where
  | empty : Sentence 0 [] .empty
  | assign {tr : Bool} {n : Nat} {ts : List Token} {t sign : Token} {s : String} {e : Expr} (ht : t.kind = .name s)
      (hs : sign.kind = .symbol .assign) (h : Phrase (.chain .comparison) tr n ts e) :
      Sentence n (t :: sign :: ts) (.assign s e)
  | define {tr : Bool} {n : Nat} {ps ts : List Token} {t lp sign : Token} {s : String} {names : List String} {e : Expr}
      (ht : t.kind = .name s) (hl : lp.kind = .leftParen) (hp : Parameters ps names) (hd : names.Nodup)
      (hs : sign.kind = .symbol .assign) (h : Phrase (.chain .comparison) tr n ts e) :
      Sentence n (t :: lp :: (ps ++ sign :: ts)) (.define s names e)
  | evaluate {tr : Bool} {n : Nat} {ts : List Token} {e : Expr} (h : Phrase (.chain .comparison) tr n ts e) :
      Sentence n ts (.evaluate e)

/-- An operand is a chain of every tier. -/
theorem Phrase.ofOperand {tr : Bool} {n : Nat} {ts : List Token} {e : Expr} (h : Phrase .operand tr n ts e)
    (tier : Tier) : Phrase (.chain tier) tr n ts e := by
  have hproduct : Phrase (.chain .product) tr n ts e := .single h
  have hsum : Phrase (.chain .sum) tr n ts e := .single hproduct
  cases tier with
  | product => exact hproduct
  | sum => exact hsum
  | comparison => exact .single hsum

/-! ## The tables of the parser -/

/-- the parser's table for a tier -/
def Tier.operator? : Tier → Symbol → Option BinaryOperator
  | comparison => Symbol.comparison?
  | sum => Symbol.additive?
  | product => Symbol.multiplicative?

/-- **The parser's tables are those of the grammar**: the operators of each tier, -/
theorem operatorIn?_iff {tier : Tier} {t : Token} {op : BinaryOperator} :
    operatorIn? tier.operator? t = some op ↔ tier.Has t op := by
  have htable : ∀ s, tier.operator? s = some op ↔ (s, op) ∈ tier.operators := by
    intro s
    cases tier <;> cases s <;> simp [Tier.operator?, Tier.operators, Symbol.comparison?, Symbol.additive?,
      Symbol.multiplicative?, eq_comm]
  unfold operatorIn? Tier.Has
  cases t.kind with
  | symbol s => simpa using htable s
  | _ => simp

/-- and the prefix operators. -/
theorem prefixOperator?_iff {t : Token} {op : UnaryOperator} : prefixOperator? t = some op ↔ Signs t op := by
  have htable : ∀ s : Symbol, s.unary? = some op ↔ (s, op) ∈ signs := by
    intro s
    cases s <;> simp [Symbol.unary?, signs, eq_comm]
  unfold prefixOperator? Signs
  cases t.kind with
  | symbol s => simpa using htable s
  | _ => simp

/-! ## Tokens of a phrase -/

/-- the categories whose phrases start with no prefix operator -/
def Category.isTight : Category → Bool
  | power | called | primary => true
  | _ => false

/-- A phrase starts with a token that closes no list, and with a prefix operator only if its category allows one. -/
theorem Phrase.starts {c : Category} {tr : Bool} {n : Nat} {ts : List Token} {e : Expr} :
    Phrase c tr n ts e → ∃ t us, ts = t :: us ∧ t.kind ≠ .rightParen ∧ (c.isTight = true → prefixOperator? t = none)
  | .single h => by
    obtain ⟨t, us, hts, hkind, -⟩ := h.starts
    exact ⟨t, us, hts, hkind, by simp [Category.isTight]⟩
  | .chain hl _ _ => by
    obtain ⟨t, us, hts, hkind, -⟩ := hl.starts
    exact ⟨t, _, by rw [hts]; rfl, hkind, by simp [Category.isTight]⟩
  | .unsigned h => by
    obtain ⟨t, us, hts, hkind, -⟩ := h.starts
    exact ⟨t, us, hts, hkind, by simp [Category.isTight]⟩
  | .signed ht _ => by
    obtain ⟨s, hs, -⟩ := ht
    exact ⟨_, _, rfl, by simp [hs], by simp [Category.isTight]⟩
  | .base h => by
    obtain ⟨t, us, hts, hkind, hsign⟩ := h.starts
    exact ⟨t, us, hts, hkind, fun _ => hsign rfl⟩
  | .power hb _ _ => by
    obtain ⟨t, us, hts, hkind, hsign⟩ := hb.starts
    exact ⟨t, _, by rw [hts]; rfl, hkind, fun _ => hsign rfl⟩
  | .uncalled h => by
    obtain ⟨t, us, hts, hkind, hsign⟩ := h.starts
    exact ⟨t, us, hts, hkind, fun _ => hsign rfl⟩
  | .call hf _ _ => by
    obtain ⟨t, us, hts, hkind, hsign⟩ := hf.starts
    exact ⟨t, _, by rw [hts]; rfl, hkind, fun _ => hsign rfl⟩
  | .integer ht => ⟨_, _, rfl, by simp [ht], by simp [prefixOperator?, ht]⟩
  | .float ht => ⟨_, _, rfl, by simp [ht], by simp [prefixOperator?, ht]⟩
  | .name ht => ⟨_, _, rfl, by simp [ht], by simp [prefixOperator?, ht]⟩
  | .parenthesised ht _ _ => ⟨_, _, rfl, by simp [ht], by simp [prefixOperator?, ht]⟩
  | .lambda ht _ _ _ _ _ => ⟨_, _, rfl, by simp [ht], by simp [prefixOperator?, ht]⟩

/-- the token is no assignment sign -/
def NoAssign (t : Token) : Prop := t.kind ≠ .symbol .assign

theorem ParameterTail.no_assign {ts : List Token} {names : List String} (h : ParameterTail ts names) :
    ∀ t ∈ ts, NoAssign t := by
  induction h with
  | last ht hc => simp [NoAssign, ht, hc]
  | more ht hc _ ih => simpa [NoAssign, ht, hc] using ih

theorem Parameters.no_assign {ts : List Token} {names : List String} (h : Parameters ts names) :
    ∀ t ∈ ts, NoAssign t := by
  cases h with
  | empty hc => simp [NoAssign, hc]
  | some h => exact h.no_assign

theorem Tier.Has.no_assign {tier : Tier} {t : Token} {op : BinaryOperator} (h : tier.Has t op) : NoAssign t := by
  obtain ⟨s, hs, hop⟩ := h
  intro hkind
  cases hs.symm.trans hkind
  cases tier <;> simp [Tier.operators] at hop

theorem Signs.no_assign {t : Token} {op : UnaryOperator} (h : Signs t op) : NoAssign t := by
  obtain ⟨s, hs, hop⟩ := h
  intro hkind
  cases hs.symm.trans hkind
  simp [signs] at hop

mutual

/-- **No phrase has an assignment sign.** -/
theorem Phrase.no_assign {c : Category} {tr : Bool} {n : Nat} {ts : List Token} {e : Expr} :
    Phrase c tr n ts e → ∀ t ∈ ts, NoAssign t
  | .single h => h.no_assign
  | .chain hl ht hr => by
    simp only [List.forall_mem_append, List.forall_mem_cons]
    exact ⟨hl.no_assign, ht.no_assign, hr.no_assign⟩
  | .unsigned h => h.no_assign
  | .signed ht h => by
    simp only [List.forall_mem_cons]
    exact ⟨ht.no_assign, h.no_assign⟩
  | .base h => h.no_assign
  | .power hb ht he => by
    simp only [List.forall_mem_append, List.forall_mem_cons]
    exact ⟨hb.no_assign, by simp [NoAssign, ht], he.no_assign⟩
  | .uncalled h => h.no_assign
  | .call hf ht ha => by
    simp only [List.forall_mem_append, List.forall_mem_cons]
    exact ⟨hf.no_assign, by simp [NoAssign, ht], ha.no_assign⟩
  | .integer ht => by simp [NoAssign, ht]
  | .float ht => by simp [NoAssign, ht]
  | .name ht => by simp [NoAssign, ht]
  | .parenthesised ht h hc => by
    simp only [List.forall_mem_append, List.forall_mem_cons]
    exact ⟨by simp [NoAssign, ht], h.no_assign, by simp [NoAssign, hc], by simp⟩
  | .lambda ht hl hp _ ha hb => by
    simp only [List.forall_mem_append, List.forall_mem_cons]
    exact ⟨by simp [NoAssign, ht], by simp [NoAssign, hl], hp.no_assign, by simp [NoAssign, ha], hb.no_assign⟩

theorem Arguments.no_assign {n : Nat} {ts : List Token} {es : List Expr} {close : Span} :
    Arguments n ts es close → ∀ t ∈ ts, NoAssign t
  | .empty ht => by simp [NoAssign, ht]
  | .some h => h.no_assign

theorem ArgumentTail.no_assign {n : Nat} {ts : List Token} {es : List Expr} {close : Span} :
    ArgumentTail n ts es close → ∀ t ∈ ts, NoAssign t
  | .last h ht => by
    simp only [List.forall_mem_append, List.forall_mem_cons]
    exact ⟨h.no_assign, by simp [NoAssign, ht], by simp⟩
  | .more h ht hs => by
    simp only [List.forall_mem_append, List.forall_mem_cons]
    exact ⟨h.no_assign, by simp [NoAssign, ht], hs.no_assign⟩

end

/-! ## Heights -/

mutual

/-- no chain of operators and no call in the tree is taller than the limit -/
def Capped : Expr → Prop
  | .integer _ _ | .float _ _ | .var _ _ => True
  | .unary _ _ e => Capped e
  | .binary s op l r => Capped l ∧ Capped r ∧ (op ≠ .pow → (Expr.binary s op l r).height ≤ maxDepth)
  | .call s f args => Capped f ∧ CappedAll args ∧ (Expr.call s f args).height ≤ maxDepth
  | .lambda _ _ body => Capped body

/-- no chain of operators and no call in the trees is taller than the limit -/
def CappedAll : List Expr → Prop
  | [] => True
  | e :: es => Capped e ∧ CappedAll es

end

@[simp] theorem height_withSpan (s : Span) (e : Expr) : (e.withSpan s).height = e.height := by
  cases e <;> simp only [Expr.withSpan, Expr.height]

@[simp] theorem capped_withSpan (s : Span) (e : Expr) : Capped (e.withSpan s) ↔ Capped e := by
  cases e <;> simp only [Expr.withSpan, Capped, Expr.height]

mutual

/-- A tree that is not too tall has nothing too tall in it. -/
theorem capped_of_height_le : ∀ {e : Expr}, e.height ≤ maxDepth → Capped e
  | .integer _ _, _ | .float _ _, _ | .var _ _, _ => by simp only [Capped]
  | .unary _ _ e, h => by
    simp only [Expr.height] at h
    simp only [Capped]
    exact capped_of_height_le (by omega)
  | .binary s op l r, h => by
    have h' := h
    simp only [Expr.height] at h'
    simp only [Capped]
    exact ⟨capped_of_height_le (by omega), capped_of_height_le (by omega), fun _ => h⟩
  | .call s f args, h => by
    have h' := h
    simp only [Expr.height] at h'
    simp only [Capped]
    exact ⟨capped_of_height_le (by omega), cappedAll_of_heights_le (by omega), h⟩
  | .lambda _ _ body, h => by
    simp only [Expr.height] at h
    simp only [Capped]
    exact capped_of_height_le (by omega)

theorem cappedAll_of_heights_le : ∀ {es : List Expr}, Expr.heights es ≤ maxDepth → CappedAll es
  | [], _ => by simp only [CappedAll]
  | e :: es, h => by
    simp only [Expr.heights] at h
    simp only [CappedAll]
    exact ⟨capped_of_height_le (by omega), cappedAll_of_heights_le (by omega)⟩

end

/-- the categories whose phrases make no prefix operator, no power and, if not trailing, no function at their root -/
def Category.isSelfContained : Category → Bool
  | called | primary => true
  | _ => false

/-- The operator of a chain is no power. -/
theorem Tier.Has.ne_pow {tier : Tier} {t : Token} {op : BinaryOperator} (h : tier.Has t op) : op ≠ .pow := by
  obtain ⟨s, -, hop⟩ := h
  rintro rfl
  cases tier <;> simp [Tier.operators] at hop

/-- **Prefix operators, powers and functions add no more than their depth.** A phrase whose chains and calls keep the
limit is at most `depth` taller than it. A base of a power must leave room for the power. -/
theorem Phrase.height_le {c : Category} {tr : Bool} {n : Nat} {ts : List Token} {e : Expr} :
    Phrase c tr n ts e → Capped e → e.height ≤ maxDepth + n ∧
      (c.isSelfContained = true → tr = false → e.height + 1 ≤ maxDepth + max n 1)
  | .single h, hc => ⟨(h.height_le hc).1, by simp [Category.isSelfContained]⟩
  | .chain hl ht _, hc => by
    simp only [operation, Capped] at hc
    have hheight := hc.2.2 ht.ne_pow
    exact ⟨Nat.le_add_right_of_le hheight, by simp [Category.isSelfContained]⟩
  | .unsigned h, hc => ⟨(h.height_le hc).1, by simp [Category.isSelfContained]⟩
  | .signed _ h, hc => by
    simp only [Capped] at hc
    have hheight := (h.height_le hc).1
    refine ⟨?_, by simp [Category.isSelfContained]⟩
    simp only [Expr.height]
    omega
  | .base h, hc => ⟨(h.height_le hc).1, by simp [Category.isSelfContained]⟩
  | .power hb _ he, hc => by
    simp only [operation, Capped] at hc
    have hbase := (hb.height_le hc.1).2 rfl rfl
    have hexponent := (he.height_le hc.2.1).1
    refine ⟨?_, by simp [Category.isSelfContained]⟩
    simp only [operation, Expr.height]
    omega
  | .uncalled h, hc => ⟨(h.height_le hc).1, fun _ htr => (h.height_le hc).2 rfl htr⟩
  | .call hf _ _, hc => by
    simp only [Capped] at hc
    have hheight := hc.2.2
    exact ⟨by omega, fun _ _ => by omega⟩
  | .integer _, _ => by simp [Expr.height, maxDepth]
  | .float _, _ => by simp [Expr.height, maxDepth]
  | .name _, _ => by simp [Expr.height, maxDepth]
  | .parenthesised _ h _, hc => by
    rw [capped_withSpan] at hc
    have hheight := (h.height_le hc).1
    rw [height_withSpan]
    exact ⟨by omega, fun _ _ => by omega⟩
  | .lambda _ _ _ _ _ hb, hc => by
    simp only [Capped] at hc
    have hheight := (hb.height_le hc).1
    simp only [Expr.height]
    exact ⟨by omega, by simp⟩

end CurveScript.Grammar
