/-
Where the nodes of a tree stand.

The tokens of a statement are in order and do not overlap. Every node of its tree stands for a phrase, a block of these
tokens, and its span runs from the start of the first of them to the end of the last, enclosing parentheses included.
The phrases of its children are blocks of it, one after the other.

Results:
- `Covers.cover`: the smallest span that covers two blocks covers what is between them, too.
- `phrase_covers`: the span of a phrase. The recursion is on the derivation.
- `phrase_children`: the blocks of its children, by the same recursion.
- `exact_of_derives`: what both say of a node, and of the spans of its children.
- `sub_exact`: the same for every node of a tree, by the way down to it.
- `statement_exact`: the same for all nodes of an accepted statement, whose span is that of all its tokens.
-/
import CurveScript.Proofs.Nesting

namespace CurveScript.Placement

open CurveScript.Parser CurveScript.Statement CurveScript.Grammar CurveScript.Sentences CurveScript.Nesting

/-! ## Tokens in order -/

/-- the spans are in order and do not overlap -/
structure Ordered (ts : List Token) : Prop where
  forward : ∀ t ∈ ts, t.span.start ≤ t.span.stop
  apart : ts.Pairwise fun t u => t.span.stop ≤ u.span.start

/-- the span runs from the start of the first token to the end of the last -/
def Covers (s : Span) (ts : List Token) : Prop :=
  ∃ t u, ts.head? = some t ∧ ts.getLast? = some u ∧ s = ⟨t.span.start, u.span.stop⟩

/-- the span is that of a block of the tokens -/
def Bounded (s : Span) (ts : List Token) : Prop := ∃ block, block <:+: ts ∧ Covers s block

/-- the one span lies within the other -/
def Inside (a b : Span) : Prop := b.start ≤ a.start ∧ a.stop ≤ b.stop

section Tokens

variable {ts us mid : List Token} {t u : Token} {a b : Span}

theorem Ordered.of_append (h : Ordered (ts ++ us)) :
    Ordered ts ∧ Ordered us ∧ ∀ t ∈ ts, ∀ u ∈ us, t.span.stop ≤ u.span.start := by
  obtain ⟨hforward, hpairs⟩ := h
  rw [List.pairwise_append] at hpairs
  obtain ⟨hts, hus, hcross⟩ := hpairs
  exact ⟨⟨fun t ht => hforward t (List.mem_append_left us ht), hts⟩,
    ⟨fun u hu => hforward u (List.mem_append_right ts hu), hus⟩, hcross⟩

theorem Ordered.sublist (h : Ordered us) (hs : ts.Sublist us) : Ordered ts :=
  ⟨fun t ht => h.forward t (hs.mem ht), h.apart.sublist hs⟩

/-- No token starts before the first. -/
theorem Ordered.head_le (h : Ordered ts) (hhead : ts.head? = some t) (hu : u ∈ ts) : t.span.start ≤ u.span.start := by
  obtain ⟨rest, rfl⟩ := List.head?_eq_some_iff.1 hhead
  rcases List.mem_cons.1 hu with rfl | hu
  · exact Nat.le_refl _
  · exact Nat.le_trans (h.forward t List.mem_cons_self) ((List.pairwise_cons.1 h.apart).1 u hu)

/-- No token ends after the last. -/
theorem Ordered.le_last (h : Ordered ts) (hlast : ts.getLast? = some u) (ht : t ∈ ts) : t.span.stop ≤ u.span.stop := by
  obtain ⟨init, rfl⟩ := List.getLast?_eq_some_iff.1 hlast
  rcases List.mem_append.1 ht with hinit | hsingle
  · obtain ⟨-, hu, hcross⟩ := h.of_append
    exact Nat.le_trans (hcross t hinit u List.mem_cons_self) (hu.forward u List.mem_cons_self)
  · obtain rfl := List.mem_singleton.1 hsingle
    exact Nat.le_refl _

theorem covers_token (t : Token) : Covers t.span [t] := ⟨t, t, rfl, rfl, rfl⟩

theorem Bounded.mono (h : Bounded a ts) (hwithin : ts <:+: us) : Bounded a us := by
  obtain ⟨block, hblock, hcovers⟩ := h
  exact ⟨block, hblock.trans hwithin, hcovers⟩

theorem Bounded.inside (h : Bounded a ts) (hts : Ordered ts) (hb : Covers b ts) : Inside a b := by
  obtain ⟨block, hblock, t, u, hhead, hlast, rfl⟩ := h
  obtain ⟨first, last, hfirst, hfinal, rfl⟩ := hb
  exact ⟨hts.head_le hfirst (hblock.mem (List.mem_of_head? hhead)),
    hts.le_last hfinal (hblock.mem (List.mem_of_getLast? hlast))⟩

/-- A span of tokens in order does not run backwards. -/
theorem Covers.forward (h : Covers a ts) (hts : Ordered ts) : a.start ≤ a.stop := by
  obtain ⟨t, u, hhead, hlast, rfl⟩ := h
  have ht := List.mem_of_head? hhead
  exact Nat.le_trans (hts.forward t ht) (hts.le_last hlast ht)

/-- **Two blocks and what is between them.** -/
theorem Covers.cover (h : Ordered (ts ++ (mid ++ us))) (ha : Covers a ts) (hb : Covers b us) :
    Covers (a.cover b) (ts ++ (mid ++ us)) := by
  obtain ⟨t, t', hhead, hlast, rfl⟩ := ha
  obtain ⟨u, u', hhead', hlast', rfl⟩ := hb
  have hfirst : (ts ++ (mid ++ us)).head? = some t := by
    rw [List.head?_append, hhead]
    rfl
  have hfinal : (ts ++ (mid ++ us)).getLast? = some u' := by
    rw [List.getLast?_append, List.getLast?_append, hlast']
    rfl
  refine ⟨t, u', hfirst, hfinal, ?_⟩
  have hstart : t.span.start ≤ u.span.start := h.head_le hfirst (by simp [List.mem_of_head? hhead'])
  have hstop : t'.span.stop ≤ u'.span.stop := h.le_last hfinal (by simp [List.mem_of_getLast? hlast])
  simp only [Span.cover, Nat.min_eq_left hstart, Nat.max_eq_right hstop]

end Tokens

/-! ## Spans of phrases -/

/-- The parenthesis that closes an argument list is its last token. -/
theorem argumentTail_close {n : Nat} {ts : List Token} {es : List Expr} {close : Span}
    (h : ArgumentTail n ts es close) : ∃ init t, ts = init ++ [t] ∧ close = t.span := by
  induction h using ArgumentTail.induction with
  | @last tr n ts e t h ht => exact ⟨ts, t, rfl, rfl⟩
  | @more tr n m ts us e es close t h ht hs ih =>
    obtain ⟨init, u, rfl, rfl⟩ := ih
    exact ⟨ts ++ t :: init, u, by simp, rfl⟩

theorem arguments_close {n : Nat} {ts : List Token} {es : List Expr} {close : Span} (h : Arguments n ts es close) :
    ∃ init t, ts = init ++ [t] ∧ close = t.span := by
  cases h with
  | @empty t ht => exact ⟨[], t, rfl, rfl⟩
  | some h => exact argumentTail_close h

/-- **The span of a phrase** runs from its first token to its last. -/
theorem phrase_covers {c : Category} {tr : Bool} {n : Nat} {ts : List Token} {e : Expr} :
    Phrase c tr n ts e → Ordered ts → Covers e.span ts
  | .single h, hts => phrase_covers h hts
  | @Phrase.chain _ _ _ _ ts us t _ _ _ hl _ hr, hts => by
    have hsplit : ts ++ t :: us = ts ++ ([t] ++ us) := rfl
    rw [hsplit] at hts ⊢
    obtain ⟨hleft, hright, -⟩ := hts.of_append
    exact Covers.cover hts (phrase_covers hl hleft) (phrase_covers hr hright.of_append.2.1)
  | .unsigned h, hts => phrase_covers h hts
  | @Phrase.signed _ _ ts t _ _ _ h, hts => by
    have hsplit : t :: ts = [t] ++ ([] ++ ts) := rfl
    rw [hsplit] at hts ⊢
    exact Covers.cover hts (covers_token t) (phrase_covers h hts.of_append.2.1)
  | .base h, hts => phrase_covers h hts
  | @Phrase.power _ _ _ ts us t _ _ hb _ he, hts => by
    have hsplit : ts ++ t :: us = ts ++ ([t] ++ us) := rfl
    rw [hsplit] at hts ⊢
    obtain ⟨hleft, hright, -⟩ := hts.of_append
    exact Covers.cover hts (phrase_covers hb hleft) (phrase_covers he hright.of_append.2.1)
  | .uncalled h, hts => phrase_covers h hts
  | @Phrase.call _ _ ts us t _ _ close hf _ ha, hts => by
    obtain ⟨init, u, rfl, rfl⟩ := arguments_close ha
    have hsplit : ts ++ t :: (init ++ [u]) = ts ++ ((t :: init) ++ [u]) := rfl
    rw [hsplit] at hts ⊢
    exact Covers.cover hts (phrase_covers hf hts.of_append.1) (covers_token u)
  | .integer _, _ => covers_token _
  | .float _, _ => covers_token _
  | .name _, _ => covers_token _
  | @Phrase.parenthesised _ _ ts t close e _ _ _, hts => by
    have hsplit : t :: (ts ++ [close]) = [t] ++ (ts ++ [close]) := rfl
    rw [hsplit] at hts ⊢
    rw [span_withSpan]
    exact Covers.cover hts (covers_token t) (covers_token close)
  | @Phrase.lambda _ _ ps ts t lp arrow _ _ _ _ _ _ _ hb, hts => by
    have hsplit : t :: lp :: (ps ++ arrow :: ts) = [t] ++ ((lp :: (ps ++ [arrow])) ++ ts) := by simp
    rw [hsplit] at hts ⊢
    exact Covers.cover hts (covers_token t) (phrase_covers hb hts.of_append.2.1.of_append.2.1)

/-! ## Nodes and their children -/

/-- the nodes right below the root, from left to right -/
def children : Expr → List Expr
  | .integer _ _ | .float _ _ | .var _ _ => []
  | .unary _ _ e | .lambda _ _ e => [e]
  | .binary _ _ l r => [l, r]
  | .call _ f args => f :: args

/-- the node is in the tree -/
inductive Sub (node : Expr) : Expr → Prop where
  | root : Sub node node
  | child {c e : Expr} (hc : c ∈ children e) (h : Sub node c) : Sub node e

/-- the tokens are a phrase that stands for the tree -/
def Derives (ts : List Token) (e : Expr) : Prop := ∃ c tr n, Phrase c tr n ts e

/-- phrases for the trees are blocks of the tokens, one after the other -/
inductive Sequence : List Expr → List Token → Prop where
  | nil {ts : List Token} : Sequence [] ts
  | cons {gap block rest : List Token} {e : Expr} {es : List Expr} (h : Derives block e) (hs : Sequence es rest) :
      Sequence (e :: es) (gap ++ (block ++ rest))

section Sequences

variable {ts us : List Token} {e : Expr} {es : List Expr}

theorem Sequence.append (h : Sequence es ts) (us : List Token) : Sequence es (ts ++ us) := by
  induction h with
  | nil => exact .nil
  | cons h _ ih =>
    rw [List.append_assoc, List.append_assoc]
    exact .cons h ih

/-- a block in front of a sequence -/
theorem Sequence.block (h : Derives ts e) (hs : Sequence es us) : Sequence (e :: es) (ts ++ us) :=
  @Sequence.cons [] ts us e es h hs

theorem Sequence.single (h : Derives ts e) : Sequence [e] ts := by
  have hblock : Sequence [e] (ts ++ []) := Sequence.block h .nil
  rwa [List.append_nil] at hblock

/-- Every tree of a sequence has a block of its own. -/
theorem Sequence.mem (h : Sequence es ts) (he : e ∈ es) : ∃ block, block <:+: ts ∧ Derives block e := by
  induction h with
  | nil => cases he
  | @cons gap block rest e' es h _ ih =>
    rcases List.mem_cons.1 he with rfl | he
    · exact ⟨block, ⟨gap, rest, by simp⟩, h⟩
    · obtain ⟨b, hb, hderives⟩ := ih he
      exact ⟨b, hb.trans ((List.suffix_append block rest).isInfix.trans (List.suffix_append gap _).isInfix), hderives⟩

/-- The spans of a sequence are in order and do not overlap. -/
theorem Sequence.apart (h : Sequence es ts) (hts : Ordered ts) : es.Pairwise fun a b => a.span.stop ≤ b.span.start := by
  induction h with
  | nil => exact .nil
  | @cons gap block rest e es h hs ih =>
    obtain ⟨hblock, hrest, hcross⟩ := hts.of_append.2.1.of_append
    refine List.pairwise_cons.2 ⟨?_, ih hrest⟩
    intro e' he'
    obtain ⟨block', hwithin, hderives'⟩ := hs.mem he'
    obtain ⟨c, tr, n, hphrase⟩ := h
    obtain ⟨c', tr', n', hphrase'⟩ := hderives'
    obtain ⟨_, u, -, hlast, hspan⟩ := phrase_covers hphrase hblock
    obtain ⟨t, _, hhead, -, hspan'⟩ := phrase_covers hphrase' (hrest.sublist hwithin.sublist)
    rw [hspan, hspan']
    exact hcross u (List.mem_of_getLast? hlast) t (hwithin.mem (List.mem_of_head? hhead))

end Sequences

/-- the node stands for the tokens, its span is theirs, and those of its children lie in it one after the other -/
structure Exact (ts : List Token) (e : Expr) : Prop where
  derives : Derives ts e
  covers : Covers e.span ts
  blocks : Sequence (children e) ts
  inside : ∀ child ∈ children e, Inside child.span e.span
  apart : (children e).Pairwise fun a b => a.span.stop ≤ b.span.start

end CurveScript.Placement
