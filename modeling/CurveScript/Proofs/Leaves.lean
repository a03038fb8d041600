/-
The leaves of a tree come from its tokens.

A literal, a name or a parameter of a tree is the kind of one of the tokens that the tree was read from. What holds of the
kinds of all tokens therefore holds of all leaves, for any property of kinds: `Over` says so of a tree.

Results:
- `Phrase.over`: the leaves of a phrase. The recursion is on the derivation, as for all facts on the tokens of a phrase.
- `parse_over`: the leaves of a statement.
-/
import CurveScript.Proofs.Sentences

namespace CurveScript

mutual

/-- every leaf of the expression, as a kind of token, has the property -/
def Expr.Over (P : TokenKind → Prop) : Expr → Prop
  | .integer _ n => P (.number (.integer n))
  | .float _ x => P (.number (.float x))
  | .var _ name => P (.name name)
  | .unary _ _ e => e.Over P
  | .binary _ _ l r => l.Over P ∧ r.Over P
  | .call _ f args => f.Over P ∧ Expr.OverAll P args
  | .lambda _ ps body => (∀ p ∈ ps, P (.name p)) ∧ body.Over P

/-- every leaf of the expressions has the property -/
def Expr.OverAll (P : TokenKind → Prop) : List Expr → Prop
  | [] => True
  | e :: es => e.Over P ∧ Expr.OverAll P es

end

/-- every leaf of the statement has the property, and every name that it binds -/
def StatementKind.Over (P : TokenKind → Prop) : StatementKind → Prop
  | .empty => True
  | .evaluate e => e.Over P
  | .assign name e => P (.name name) ∧ e.Over P
  | .define name params body => P (.name name) ∧ (∀ p ∈ params, P (.name p)) ∧ body.Over P

namespace Leaves

open CurveScript.Parser CurveScript.Grammar CurveScript.Sentences

variable {P : TokenKind → Prop}

theorem over_withSpan (s : Span) {e : Expr} (h : e.Over P) : (e.withSpan s).Over P := by
  cases e <;> simpa only [Expr.withSpan, Expr.Over] using h

theorem parameterTail_over {ts : List Token} {names : List String} (h : ParameterTail ts names)
    (hts : ∀ t ∈ ts, P t.kind) : ∀ p ∈ names, P (.name p) := by
  induction h with
  | @last t close s ht hc =>
    intro p hp
    rw [List.mem_singleton.1 hp, ← ht]
    exact hts t List.mem_cons_self
  | @more t comma s ts names ht hc _ ih =>
    simp only [List.forall_mem_cons] at hts ⊢
    exact ⟨ht ▸ hts.1, ih hts.2.2⟩

theorem parameters_over {ts : List Token} {names : List String} (h : Parameters ts names)
    (hts : ∀ t ∈ ts, P t.kind) : ∀ p ∈ names, P (.name p) := by
  cases h with
  | empty hc => simp
  | some h => exact parameterTail_over h hts

mutual

theorem phrase_over {c : Category} {tr : Bool} {n : Nat} {ts : List Token} {e : Expr} :
    Phrase c tr n ts e → (∀ t ∈ ts, P t.kind) → e.Over P
  | .single h, hts => phrase_over h hts
  | .chain hl _ hr, hts => by
    simp only [List.forall_mem_append, List.forall_mem_cons] at hts
    simp only [operation, Expr.Over]
    exact ⟨phrase_over hl hts.1, phrase_over hr hts.2.2⟩
  | .unsigned h, hts => phrase_over h hts
  | .signed _ h, hts => by
    simp only [List.forall_mem_cons] at hts
    simp only [Expr.Over]
    exact phrase_over h hts.2
  | .base h, hts => phrase_over h hts
  | .power hb _ he, hts => by
    simp only [List.forall_mem_append, List.forall_mem_cons] at hts
    simp only [operation, Expr.Over]
    exact ⟨phrase_over hb hts.1, phrase_over he hts.2.2⟩
  | .uncalled h, hts => phrase_over h hts
  | .call hf _ ha, hts => by
    simp only [List.forall_mem_append, List.forall_mem_cons] at hts
    simp only [Expr.Over]
    exact ⟨phrase_over hf hts.1, arguments_over ha hts.2.2⟩
  | .integer ht, hts => by
    simp only [Expr.Over]
    exact ht ▸ hts _ List.mem_cons_self
  | .float ht, hts => by
    simp only [Expr.Over]
    exact ht ▸ hts _ List.mem_cons_self
  | .name ht, hts => by
    simp only [Expr.Over]
    exact ht ▸ hts _ List.mem_cons_self
  | .parenthesised _ h _, hts => by
    simp only [List.forall_mem_append, List.forall_mem_cons] at hts
    exact over_withSpan _ (phrase_over h hts.2.1)
  | .lambda _ _ hp _ _ hb, hts => by
    simp only [List.forall_mem_append, List.forall_mem_cons] at hts
    simp only [Expr.Over]
    exact ⟨parameters_over hp hts.2.2.1, phrase_over hb hts.2.2.2.2⟩

theorem arguments_over {n : Nat} {ts : List Token} {es : List Expr} {close : Span} :
    Arguments n ts es close → (∀ t ∈ ts, P t.kind) → Expr.OverAll P es
  | .empty _, _ => by simp only [Expr.OverAll]
  | .some h, hts => argumentTail_over h hts

theorem argumentTail_over {n : Nat} {ts : List Token} {es : List Expr} {close : Span} :
    ArgumentTail n ts es close → (∀ t ∈ ts, P t.kind) → Expr.OverAll P es
  | .last h _, hts => by
    simp only [List.forall_mem_append, List.forall_mem_cons] at hts
    simp only [Expr.OverAll, and_true]
    exact phrase_over h hts.1
  | .more h _ hs, hts => by
    simp only [List.forall_mem_append, List.forall_mem_cons] at hts
    simp only [Expr.OverAll]
    exact ⟨phrase_over h hts.1, argumentTail_over hs hts.2.2⟩

end

theorem sentence_over {n : Nat} {ts : List Token} {kind : StatementKind} (h : Sentence n ts kind)
    (hts : ∀ t ∈ ts, P t.kind) : kind.Over P := by
  cases h with
  | empty => trivial
  | assign ht _ h =>
    simp only [List.forall_mem_cons] at hts
    exact ⟨ht ▸ hts.1, phrase_over h hts.2.2⟩
  | define ht _ hp _ _ h =>
    simp only [List.forall_mem_append, List.forall_mem_cons] at hts
    exact ⟨ht ▸ hts.1, parameters_over hp hts.2.2.1, phrase_over h hts.2.2.2.2⟩
  | evaluate h => exact phrase_over h hts

/-- **The leaves of a statement come from its tokens.** -/
theorem parse_over {ts : List Token} {stop : Nat} {s : Statement} (h : Statement.parse ts stop = .ok s)
    (hts : ∀ t ∈ ts, P t.kind) : s.kind.Over P := by
  obtain ⟨-, n, hsentence, -⟩ := parse_sound h
  exact sentence_over hsentence hts

end Leaves

end CurveScript
