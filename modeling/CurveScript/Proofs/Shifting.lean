/-
Text moved to the right.

Lexemes, tokens, trees and the places of errors are moved by a number of bytes. Cutting a text, reading tokens and
reading statements never ask where they are, so each of them gives the same for a text that stands further on, moved.

Results:
- `split_shift`, `ofLexemes_shift`: lexemes and tokens of a text that starts later, and its fault if it has one.
- `operand_shift`, `expression_shift`: readers of expressions. A reader is compared with itself on moved tokens, with
  the equations of `Readers`; the induction is on the levels.
- `parse_shift`: statements and their errors.
-/
import CurveScript.Proofs.Readers

namespace CurveScript

/-! ## Moving -/

/-- the span moved by `k` bytes -/
def Span.shift (k : Nat) (s : Span) : Span := ⟨s.start + k, s.stop + k⟩

/-- the lexeme moved by `k` bytes -/
def Lexeme.shift (k : Nat) (l : Lexeme) : Lexeme := { l with start := l.start + k }

/-- the token moved by `k` bytes -/
def Token.shift (k : Nat) (t : Token) : Token := { t with span := t.span.shift k }

/-- the lex error moved by `k` bytes -/
def LexError.shift (k : Nat) (e : LexError) : LexError := { e with span := e.span.shift k }

namespace Expr

mutual

/-- the expression moved by `k` bytes -/
def shift (k : Nat) : Expr → Expr
  | integer s n => integer (s.shift k) n
  | float s x => float (s.shift k) x
  | var s name => var (s.shift k) name
  | unary s op e => unary (s.shift k) op (shift k e)
  | binary s op l r => binary (s.shift k) op (shift k l) (shift k r)
  | call s f args => call (s.shift k) (shift k f) (shiftAll k args)
  | lambda s ps body => lambda (s.shift k) ps (shift k body)

/-- the expressions moved by `k` bytes -/
def shiftAll (k : Nat) : List Expr → List Expr
  | [] => []
  | e :: es => shift k e :: shiftAll k es

end

end Expr

/-- the statement moved by `k` bytes, without its span -/
def StatementKind.shift (k : Nat) : StatementKind → StatementKind
  | empty => empty
  | evaluate e => evaluate (e.shift k)
  | assign name e => assign name (e.shift k)
  | define name params body => define name params (body.shift k)

/-- the statement moved by `k` bytes -/
def Statement.shift (k : Nat) (s : Statement) : Statement := ⟨s.kind.shift k, s.span.shift k⟩

/-- the parse error moved by `k` bytes -/
def ParseError.shift (k : Nat) (e : ParseError) : ParseError := { e with span := e.span.shift k }

theorem Span.shift_cover (k : Nat) (a b : Span) : (a.shift k).cover (b.shift k) = (a.cover b).shift k := by
  simp only [Span.shift, Span.cover, Span.mk.injEq]
  omega

theorem Span.shift_zero (s : Span) : s.shift 0 = s := rfl

@[simp] theorem Token.shift_kind (k : Nat) (t : Token) : (t.shift k).kind = t.kind := rfl

@[simp] theorem Token.shift_span (k : Nat) (t : Token) : (t.shift k).span = t.span.shift k := rfl

theorem Token.map_shift_zero (ts : List Token) : ts.map (Token.shift 0) = ts := List.map_id'' (fun _ => rfl) ts

namespace Expr

@[simp] theorem span_shift (k : Nat) (e : Expr) : (e.shift k).span = e.span.shift k := by
  cases e <;> simp only [shift, span]

theorem withSpan_shift (k : Nat) (s : Span) (e : Expr) : (e.shift k).withSpan (s.shift k) = (e.withSpan s).shift k := by
  cases e <;> simp only [shift, withSpan]

mutual

theorem height_shift (k : Nat) : ∀ e : Expr, (e.shift k).height = e.height
  | integer _ _ | float _ _ | var _ _ => by simp only [shift, height]
  | unary _ _ e => by simp only [shift, height, height_shift k e]
  | binary _ _ l r => by simp only [shift, height, height_shift k l, height_shift k r]
  | call _ f args => by simp only [shift, height, height_shift k f, heights_shift k args]
  | lambda _ _ body => by simp only [shift, height, height_shift k body]

theorem heights_shift (k : Nat) : ∀ es : List Expr, heights (shiftAll k es) = heights es
  | [] => by simp only [shiftAll, heights]
  | e :: es => by simp only [shiftAll, heights, height_shift k e, heights_shift k es]

end

mutual

theorem shift_zero : ∀ e : Expr, e.shift 0 = e
  | integer _ _ | float _ _ | var _ _ => by simp only [shift, Span.shift_zero]
  | unary _ _ e => by simp only [shift, Span.shift_zero, shift_zero e]
  | binary _ _ l r => by simp only [shift, Span.shift_zero, shift_zero l, shift_zero r]
  | call _ f args => by simp only [shift, Span.shift_zero, shift_zero f, shiftAll_zero args]
  | lambda _ _ body => by simp only [shift, Span.shift_zero, shift_zero body]

theorem shiftAll_zero : ∀ es : List Expr, shiftAll 0 es = es
  | [] => by simp only [shiftAll]
  | e :: es => by simp only [shiftAll, shift_zero e, shiftAll_zero es]

end

end Expr

namespace Shifting

open CurveScript.Parser CurveScript.Statement CurveScript.Readers

/-! ## Lexemes and tokens -/

theorem stop_shift (k : Nat) (l : Lexeme) : (l.shift k).stop = l.stop + k := by
  simp only [Lexeme.stop, Lexeme.shift]
  omega

theorem span_shift (k : Nat) (l : Lexeme) : (l.shift k).span = l.span.shift k := by
  show Span.mk (l.start + k) (l.shift k).stop = ⟨l.start + k, l.stop + k⟩
  rw [stop_shift]

/-- A text that starts later has the same lexemes, later. -/
theorem split_shift (k pos : Nat) (cs : List Char) :
    Lexeme.split (pos + k) cs = (Lexeme.split pos cs).map (Lexeme.shift k) := by
  fun_induction Lexeme.split pos cs with
  | case1 pos cs b h => rw [Lexeme.split, h]; rfl
  | case2 pos cs b c r h piece lexeme ih =>
    have hmoved : (⟨piece.kind, piece.text, pos + k + byteLength b⟩ : Lexeme) = lexeme.shift k := by
      simp only [lexeme, Lexeme.shift, Lexeme.mk.injEq, true_and]
      omega
    rw [Lexeme.split, h]
    simp only [List.map_cons]
    rw [hmoved, stop_shift, ih]

/-- what a text has been read as, moved by `k` bytes, where `f` moves what was read -/
def lexed {α : Type} (k : Nat) (f : α → α) : Except LexError α → Except LexError α
  | .ok a => .ok (f a)
  | .error e => .error (e.shift k)

theorem lexed_map {α β : Type} {k : Nat} {f : α → α} {g : β → β} {h h' : α → β} {x y : Except LexError α}
    (hx : y = lexed k f x) (hf : ∀ a, h' (f a) = g (h a)) : y.map h' = lexed k g (x.map h) := by
  subst hx
  cases x with
  | error e => rfl
  | ok a => exact congrArg Except.ok (hf a)

theorem read_shift (k : Nat) (text : List Char) (span : Span) :
    Literal.read text (span.shift k) = lexed k id (Literal.read text span) := by
  unfold Literal.read
  split
  · cases Double.ofChars? text with
    | none => rfl
    | some x =>
      simp only
      split <;> rfl
  · cases Integer.ofInt? (signedValue text) <;> rfl

/-- A lexeme further on makes the same token, or has the same fault, further on. -/
theorem ofLexeme_shift (k : Nat) (l : Lexeme) :
    Token.ofLexeme (l.shift k) = lexed k (Token.shift k) (Token.ofLexeme l) := by
  obtain ⟨kind, text, start⟩ := l
  have hspan := span_shift k ⟨kind, text, start⟩
  cases kind with
  | number =>
    have hread := read_shift k text (Lexeme.span ⟨.number, text, start⟩)
    rw [← hspan] at hread
    exact lexed_map hread fun n => congrArg (Token.mk (.number n)) hspan
  | malformedNumber | openComment | unknown => exact congrArg (fun s => Except.error (LexError.mk _ s)) hspan
  | _ => exact congrArg (fun s => Except.ok (Token.mk _ s)) hspan

theorem joins_shift (k : Nat) (after : Bool) (l next : Lexeme) :
    Token.joins after (l.shift k) (next.shift k) = Token.joins after l next := by
  have hstop : ((l.shift k).stop == (next.shift k).start) = (l.stop == next.start) := by
    rw [stop_shift, Bool.eq_iff_iff, beq_iff_eq, beq_iff_eq]
    simp only [Lexeme.shift]
    omega
  unfold Token.joins
  rw [hstop]
  rfl

theorem signed_shift (k : Nat) (l next : Lexeme) :
    Token.signed (l.shift k) (next.shift k) = (Token.signed l next).shift k := rfl

/-- **Lexemes further on make the same tokens,** or have the same fault, further on. -/
theorem ofLexemes_shift (k : Nat) (after : Bool) (ls : List Lexeme) :
    Token.ofLexemes after (ls.map (Lexeme.shift k)) =
      lexed k (List.map (Token.shift k)) (Token.ofLexemes after ls) := by
  fun_induction Token.ofLexemes after ls with
  | case1 => rfl
  | case2 after l =>
    rw [List.map_cons, List.map_nil, Token.ofLexemes]
    exact lexed_map (ofLexeme_shift k l) fun t => rfl
  | case3 after l next ls hjoin e he =>
    simp only [List.map_cons]
    rw [Token.ofLexemes, joins_shift, if_pos hjoin, signed_shift, ofLexeme_shift k, he]
    rfl
  | case4 after l next ls hjoin t ht ih =>
    simp only [List.map_cons]
    rw [Token.ofLexemes, joins_shift, if_pos hjoin, signed_shift, ofLexeme_shift k, ht]
    exact lexed_map ih fun us => rfl
  | case5 after l next ls hjoin e he =>
    simp only [List.map_cons]
    rw [Token.ofLexemes, joins_shift, if_neg hjoin, ofLexeme_shift k, he]
    rfl
  | case6 after l next ls hjoin t ht ih =>
    simp only [List.map_cons] at ih ⊢
    rw [Token.ofLexemes, joins_shift, if_neg hjoin, ofLexeme_shift k, ht]
    exact lexed_map ih fun us => rfl

/-! ## Readers -/

/-- a result moved by `k` bytes, where `f` moves what was read -/
def moved {α β : Type} (k : Nat) (f : α → β) : Except ParseError α → Except ParseError β
  | .ok a => .ok (f a)
  | .error e => .error (e.shift k)

/-- what was read and the tokens that are left, moved by `k` bytes -/
def readShift {α β : Type} (k : Nat) (f : α → β) (q : α × List Token) : β × List Token :=
  (f q.1, q.2.map (Token.shift k))

theorem moved_bind {α α' β β' : Type} {k : Nat} {f : α → α'} {g : β → β'} {x : Except ParseError α}
    {F : α → Except ParseError β} {F' : α' → Except ParseError β'} (h : ∀ a, x = .ok a → F' (f a) = moved k g (F a)) :
    moved k f x >>= F' = moved k g (x >>= F) := by
  cases x with
  | error e => rfl
  | ok a => exact h a rfl

/-- What a reader leaves is as short as it says. -/
theorem left_of_bare {α : Type} {p : List Token → Prop} {x : Except ParseError (α × { rest : List Token // p rest })}
    {q : α × List Token} (h : bare x = .ok q) : p q.2 := by
  cases x with
  | error e => cases h
  | ok y => cases h; exact y.2.2

theorem operation_shift (k : Nat) (op : BinaryOperator) (l r : Expr) :
    operation op (l.shift k) (r.shift k) = (operation op l r).shift k := by
  simp only [operation, Expr.shift, Expr.span_shift, Span.shift_cover]

theorem shallow_shift (k : Nat) (e : Expr) (at_ : Span) :
    shallow (e.shift k) (at_.shift k) = moved k (Expr.shift k) (shallow e at_) := by
  unfold shallow
  rw [Expr.height_shift]
  split_ifs <;> rfl

/-- the reader `r'` does on tokens further on what `r` does -/
def Moves (k : Nat) (r r' : Reader Expr) : Prop :=
  ∀ ts : List Token, bare (r' (ts.map (Token.shift k))) = moved k (readShift k (Expr.shift k)) (bare (r ts))

variable {k stop : Nat} {inner inner' : Reader Expr}

/-! ### Chains -/

theorem chainRest_shift {table : Symbol → Option BinaryOperator} {r r' : Reader Expr} (hr : Moves k r r') (l : Expr)
    (ts : List Token) : bare (chainRest table r' (l.shift k) (ts.map (Token.shift k))) =
      moved k (readShift k (Expr.shift k)) (bare (chainRest table r l ts)) :=
  match ts with
  | [] => by rw [bare_chainRest_nil, List.map_nil, bare_chainRest_nil]; rfl
  | t :: rest => by
    cases hop : operatorIn? table t with
    | none =>
      have hop' : operatorIn? table (t.shift k) = none := hop
      rw [bare_chainRest_stop table r l rest hop, List.map_cons, bare_chainRest_stop table r' _ _ hop']
      rfl
    | some op =>
      have hop' : operatorIn? table (t.shift k) = some op := hop
      rw [bare_chainRest_step table r l rest hop, List.map_cons, bare_chainRest_step table r' _ _ hop', hr rest]
      refine moved_bind fun q hq => ?_
      rw [readShift, operation_shift, Token.shift_span, shallow_shift]
      refine moved_bind fun tree _ => ?_
      have hleft : q.2.length < rest.length := left_of_bare hq
      exact chainRest_shift hr tree q.2
termination_by ts.length
decreasing_by simp only [List.length_cons]; omega

theorem chain_shift {table : Symbol → Option BinaryOperator} {r r' : Reader Expr} (hr : Moves k r r') :
    Moves k (chain table r) (chain table r') := by
  intro ts
  rw [bare_chain, bare_chain, hr ts]
  exact moved_bind fun q _ => chainRest_shift hr q.1 q.2

theorem comparison_shift {r r' : Reader Expr} (hr : Moves k r r') : Moves k (comparison r) (comparison r') :=
  chain_shift (chain_shift (chain_shift hr))

/-! ### Lists in parentheses -/

/-- a list of arguments with the place of its end, moved by `k` bytes -/
def argumentsShift (k : Nat) (q : List Expr × Span) : List Expr × Span := (Expr.shiftAll k q.1, q.2.shift k)

theorem left_of_bareList {p : List Token → Prop}
    {x : Except ParseError (List Expr × Span × { rest : List Token // p rest })} {q : (List Expr × Span) × List Token}
    (h : bareList x = .ok q) : p q.2 := by
  cases x with
  | error e => cases h
  | ok y => cases h; exact y.2.2.2

theorem argumentsRest_shift (hinner : Moves k inner inner') (ts : List Token) :
    bareList (argumentsRest (stop + k) inner' (ts.map (Token.shift k))) =
      moved k (readShift k (argumentsShift k)) (bareList (argumentsRest stop inner ts)) := by
  rw [bare_argumentsRest, bare_argumentsRest, hinner ts]
  refine moved_bind ?_
  rintro ⟨e, rest⟩ hq
  have hleft : rest.length < ts.length := left_of_bare hq
  cases rest with
  | nil => rfl
  | cons t rest =>
    simp only [readShift, List.map_cons, afterArgument, Token.shift_kind]
    cases t.kind with
    | rightParen => rfl
    | comma =>
      simp only
      rw [argumentsRest_shift hinner rest]
      exact moved_bind fun q _ => rfl
    | _ => rfl
termination_by ts.length
decreasing_by rw [List.length_cons] at hleft; omega

theorem arguments_shift (hinner : Moves k inner inner') (ts : List Token) :
    bareList (arguments (stop + k) inner' (ts.map (Token.shift k))) =
      moved k (readShift k (argumentsShift k)) (bareList (arguments stop inner ts)) := by
  cases ts with
  | nil => exact argumentsRest_shift hinner []
  | cons t rest =>
    by_cases hclose : t.kind = .rightParen
    · rw [bare_arguments_close stop inner rest hclose, List.map_cons, bare_arguments_close _ _ _ (by exact hclose)]
      rfl
    · rw [bare_arguments_open stop inner rest hclose, List.map_cons, bare_arguments_open _ _ _ (by exact hclose)]
      exact argumentsRest_shift hinner (t :: rest)

theorem callsRest_shift (hinner : Moves k inner inner') (f : Expr) (ts : List Token) :
    bare (callsRest (stop + k) inner' (f.shift k) (ts.map (Token.shift k))) =
      moved k (readShift k (Expr.shift k)) (bare (callsRest stop inner f ts)) :=
  match ts with
  | [] => by rw [bare_calls_nil, List.map_nil, bare_calls_nil]; rfl
  | t :: rest => by
    by_cases hopen : t.kind = .leftParen
    · rw [bare_calls_step stop inner f rest hopen, List.map_cons, bare_calls_step _ _ _ _ (by exact hopen),
        arguments_shift hinner rest]
      refine moved_bind fun q hq => ?_
      have hcall : Expr.call ((f.shift k).span.cover (q.1.2.shift k)) (f.shift k) (Expr.shiftAll k q.1.1) =
          (Expr.call (f.span.cover q.1.2) f q.1.1).shift k := by
        simp only [Expr.shift, Expr.span_shift, Span.shift_cover]
      simp only [readShift, argumentsShift]
      rw [hcall, shallow_shift]
      refine moved_bind fun tree _ => ?_
      have hleft : q.2.length < rest.length := left_of_bareList hq
      exact callsRest_shift hinner tree q.2
    · rw [bare_calls_stop stop inner f rest hopen, List.map_cons, bare_calls_stop _ _ _ _ (by exact hopen)]
      rfl
termination_by ts.length
decreasing_by simp only [List.length_cons]; omega

/-- parameter names in their places, moved by `k` bytes -/
def namesShift (k : Nat) (ps : List (String × Span)) : List (String × Span) := ps.map fun p => (p.1, p.2.shift k)

theorem parametersRest_shift (k stop : Nat) : ∀ ts : List Token,
    bare (parametersRest (stop + k) (ts.map (Token.shift k))) =
      moved k (readShift k (namesShift k)) (bare (parametersRest stop ts))
  | [] => rfl
  | t :: rest => by
    by_cases hname : ∃ s, t.kind = .name s
    · obtain ⟨s, hkind⟩ := hname
      rw [bare_parametersRest_name stop _ hkind, List.map_cons, bare_parametersRest_name _ _ (by exact hkind)]
      match rest with
      | [] => rfl
      | u :: ts =>
        simp only [List.map_cons, afterParameter, Token.shift_kind]
        cases u.kind with
        | comma =>
          simp only
          rw [parametersRest_shift k stop ts]
          exact moved_bind fun q _ => rfl
        | _ => rfl
    · have hother : ∀ s, t.kind ≠ .name s := fun s hs => hname ⟨s, hs⟩
      rw [bare_parametersRest_other stop rest hother, List.map_cons, bare_parametersRest_other _ _ (by exact hother)]
      rfl

theorem parameters_shift (k stop : Nat) (ts : List Token) :
    bare (parameters (stop + k) (ts.map (Token.shift k))) =
      moved k (readShift k (namesShift k)) (bare (parameters stop ts)) := by
  cases ts with
  | nil => exact parametersRest_shift k stop []
  | cons t rest =>
    by_cases hclose : t.kind = .rightParen
    · rw [bare_parameters_close stop rest hclose, List.map_cons, bare_parameters_close _ _ (by exact hclose)]
      rfl
    · rw [bare_parameters_open stop rest hclose, List.map_cons, bare_parameters_open _ _ (by exact hclose)]
      exact parametersRest_shift k stop (t :: rest)

theorem firstRepeated?_shift (k : Nat) (seen : List String) (ps : List (String × Span)) :
    firstRepeated? seen (namesShift k ps) = (firstRepeated? seen ps).map fun p => (p.1, p.2.shift k) := by
  induction ps generalizing seen with
  | nil => rfl
  | cons p ps ih =>
    simp only [namesShift, List.map_cons, firstRepeated?]
    split_ifs
    · rfl
    · exact ih _

theorem distinct_shift (k : Nat) (ps : List (String × Span)) :
    distinct (namesShift k ps) = moved k id (distinct ps) := by
  unfold distinct
  rw [firstRepeated?_shift]
  cases firstRepeated? [] ps with
  | some p => rfl
  | none =>
    simp only [Option.map_none, namesShift, List.map_map]
    rfl

/-! ### Operands -/

theorem parenthesised_shift (hinner : Moves k inner inner') (opening : Span) (ts : List Token) :
    bare (parenthesised (stop + k) inner' (opening.shift k) (ts.map (Token.shift k))) =
      moved k (readShift k (Expr.shift k)) (bare (parenthesised stop inner opening ts)) := by
  rw [bare_parenthesised, bare_parenthesised, hinner ts]
  refine moved_bind ?_
  rintro ⟨e, rest⟩ -
  cases rest with
  | nil => rfl
  | cons t rest =>
    simp only [readShift, List.map_cons, closeParen, Token.shift_kind]
    cases t.kind with
    | rightParen =>
      simp only [Token.shift_span, Span.shift_cover, Expr.withSpan_shift]
      rfl
    | _ => rfl

theorem lambda_shift (hinner : Moves k inner inner') (keyword : Span) (ts : List Token) :
    bare (lambda (stop + k) inner' (keyword.shift k) (ts.map (Token.shift k))) =
      moved k (readShift k (Expr.shift k)) (bare (lambda stop inner keyword ts)) := by
  cases ts with
  | nil => rfl
  | cons t rest =>
    by_cases hopen : t.kind = .leftParen
    · rw [bare_lambda_open stop inner keyword rest hopen, List.map_cons, bare_lambda_open _ _ _ _ (by exact hopen),
        parameters_shift]
      refine moved_bind fun q _ => ?_
      rw [readShift, distinct_shift]
      refine moved_bind fun names _ => ?_
      cases q.2 with
      | nil => rfl
      | cons arrow body =>
        simp only [List.map_cons, afterParameters, Token.shift_kind]
        cases arrow.kind with
        | symbol s =>
          cases s with
          | arrow =>
            simp only
            rw [hinner body]
            refine moved_bind fun p _ => ?_
            simp only [readShift, Expr.span_shift, Span.shift_cover, moved, Expr.shift, id]
          | _ => rfl
        | _ => rfl
    · rw [bare_lambda_other stop inner keyword rest hopen, List.map_cons, bare_lambda_other _ _ _ _ (by exact hopen)]
      rfl

theorem primary_shift (hinner : Moves k inner inner') : Moves k (primary stop inner) (primary (stop + k) inner') := by
  intro ts
  cases ts with
  | nil => rfl
  | cons t rest =>
    rw [bare_primary_cons, List.map_cons, bare_primary_cons]
    simp only [primaryAt, Token.shift_kind]
    cases t.kind with
    | number n => cases n <;> (simp only [Token.shift_span, moved, readShift, Expr.shift])
    | name s => simp only [Token.shift_span, moved, readShift, Expr.shift]
    | leftParen => exact parenthesised_shift hinner t.span rest
    | functionKeyword => exact lambda_shift hinner t.span rest
    | _ => rfl

theorem postfixed_shift (hinner : Moves k inner inner') :
    Moves k (postfixed stop inner) (postfixed (stop + k) inner') := by
  intro ts
  rw [bare_postfixed, bare_postfixed, primary_shift hinner ts]
  exact moved_bind fun q _ => callsRest_shift hinner q.1 q.2

variable {exponent exponent' : Span → Reader Expr}

theorem power_shift (hinner : Moves k inner inner') (hexponent : ∀ at_, Moves k (exponent at_) (exponent' (at_.shift k))) :
    Moves k (power stop inner exponent) (power (stop + k) inner' exponent') := by
  intro ts
  rw [bare_power, bare_power, postfixed_shift hinner ts]
  refine moved_bind ?_
  rintro ⟨b, rest⟩ -
  cases rest with
  | nil => rfl
  | cons t rest =>
    simp only [readShift, List.map_cons, afterBase, Token.shift_kind, Expr.span_shift]
    cases t.kind with
    | symbol s =>
      cases s with
      | caret =>
        simp only
        rw [hexponent b.span rest]
        refine moved_bind fun q _ => ?_
        simp only [readShift, operation_shift, moved]
      | _ => rfl
    | _ => rfl

theorem unary_shift (hinner : Moves k inner inner') (hoperand : ∀ at_, Moves k (exponent at_) (exponent' (at_.shift k))) :
    Moves k (unary stop inner exponent) (unary (stop + k) inner' exponent') := by
  intro ts
  cases ts with
  | nil =>
    rw [List.map_nil, bare_unary_nil, bare_unary_nil]
    exact power_shift hinner hoperand []
  | cons t rest =>
    cases hop : prefixOperator? t with
    | none =>
      have hop' : prefixOperator? (t.shift k) = none := hop
      rw [List.map_cons, bare_unary_unsigned _ _ _ _ hop', bare_unary_unsigned _ _ _ _ hop]
      exact power_shift hinner hoperand (t :: rest)
    | some op =>
      have hop' : prefixOperator? (t.shift k) = some op := hop
      rw [List.map_cons, bare_unary_signed _ _ _ _ hop', bare_unary_signed _ _ _ _ hop, Token.shift_span,
        hoperand t.span rest]
      refine moved_bind fun q _ => ?_
      simp only [readShift, Expr.span_shift, Span.shift_cover, moved, Expr.shift]

/-- With no level left a reader refuses where it stands. -/
theorem refuse_shift (k stop : Nat) : Moves k (fun ts => .error (tooDeep (nextSpan stop ts)))
    (fun ts => .error (tooDeep (nextSpan (stop + k) ts))) := by
  intro ts
  cases ts <;> rfl

theorem operand_shift (k stop levels : Nat) : Moves k (operand stop levels) (operand (stop + k) levels) := by
  induction levels with
  | zero => exact unary_shift (refuse_shift k stop) fun at_ ts => rfl
  | succ levels ih => exact unary_shift (comparison_shift ih) fun _ => ih

theorem expression_shift (k stop : Nat) : Moves k (expression stop) (expression (stop + k)) :=
  comparison_shift (operand_shift k stop maxDepth)

/-! ## Statements -/

theorem finish_shift (k : Nat) (e : Expr) (ts : List Token) :
    finish (e.shift k) (ts.map (Token.shift k)) = moved k (Expr.shift k) (finish e ts) := by
  cases ts with
  | nil => rfl
  | cons t rest =>
    simp only [List.map_cons, finish, Token.shift_kind]
    cases t.kind with
    | symbol s => cases s <;> rfl
    | _ => rfl

theorem whole_shift (k stop : Nat) (ts : List Token) :
    whole (stop + k) (ts.map (Token.shift k)) = moved k (Expr.shift k) (whole stop ts) := by
  have hwhole : ∀ (stop : Nat) (ts : List Token), whole stop ts = bare (expression stop ts) >>= fun q => finish q.1 q.2 := by
    intro stop ts
    unfold whole
    cases expression stop ts <;> rfl
  rw [hwhole, hwhole, expression_shift k stop ts]
  exact moved_bind fun q _ => finish_shift k q.1 q.2

theorem assignment?_shift (k : Nat) (ts : List Token) :
    assignment? (ts.map (Token.shift k)) = (assignment? ts).map fun p => (p.1, p.2.map (Token.shift k)) := by
  match ts with
  | [] | [_] => rfl
  | t :: next :: rest =>
    simp only [List.map_cons, assignment?, Token.shift_kind]
    cases t.kind with
    | name s =>
      cases next.kind with
      | symbol sign => cases sign <;> rfl
      | _ => rfl
    | _ => rfl

/-- a definition of `s` by what its parameter list and the tokens after it are read as -/
def definitionOf (s : String) : Except ParseError (List (String × Span) × List Token) →
    Option (String × List (String × Span) × List Token)
  | .ok (params, sign :: body) =>
    match sign.kind with
    | .symbol .assign => some (s, params, body)
    | _ => none
  | _ => none

/-- What stands before the parameters decides whether tokens may be a definition. -/
theorem definition?_eq (stop : Nat) (t lp : Token) (rest : List Token) :
    definition? stop (t :: lp :: rest) =
      match t.kind, lp.kind with
      | .name s, .leftParen => definitionOf s (bare (parameters stop rest))
      | _, _ => none := by
  simp only [definition?]
  generalize t.kind = kind
  generalize lp.kind = kind'
  cases kind with
  | name s =>
    cases kind' with
    | leftParen =>
      cases parameters stop rest with
      | error e => rfl
      | ok q =>
        obtain ⟨params, after, hafter⟩ := q
        cases after <;> rfl
    | _ => rfl
  | _ => rfl

theorem definition?_shift (k stop : Nat) (ts : List Token) :
    definition? (stop + k) (ts.map (Token.shift k)) =
      (definition? stop ts).map fun p => (p.1, namesShift k p.2.1, p.2.2.map (Token.shift k)) := by
  match ts with
  | [] | [_] => rfl
  | t :: lp :: rest =>
    rw [List.map_cons, List.map_cons, definition?_eq, definition?_eq, parameters_shift]
    simp only [Token.shift_kind]
    split
    · cases bare (parameters stop rest) with
      | error e => rfl
      | ok q =>
        obtain ⟨params, after⟩ := q
        cases after with
        | nil => rfl
        | cons sign body =>
          simp only [moved, readShift, List.map_cons, definitionOf, Token.shift_kind]
          cases sign.kind with
          | symbol s => cases s <;> rfl
          | _ => rfl
    · rfl

theorem moved_map {α α' β β' : Type} {k : Nat} (f : α → α') (g : β → β') (h : α → β) (h' : α' → β')
    (hcomm : ∀ a, h' (f a) = g (h a)) (x : Except ParseError α) : (moved k f x).map h' = moved k g (x.map h) := by
  cases x with
  | error e => rfl
  | ok a => exact congrArg Except.ok (hcomm a)

/-- a definition of `name` by what its parameters are read as -/
def definedBy (stop : Nat) (name : String) (body : List Token) (params : Except ParseError (List String)) :
    Except ParseError StatementKind :=
  params >>= fun ps => (whole stop body).map (.define name ps)

theorem kindOf_eq (stop : Nat) (ts : List Token) :
    kindOf stop ts =
      match assignment? ts with
      | some p => (whole stop p.2).map (.assign p.1)
      | none =>
        match definition? stop ts with
        | some p => definedBy stop p.1 p.2.2 (distinct p.2.1)
        | none => (whole stop ts).map .evaluate := by
  unfold kindOf definedBy
  cases assignment? ts with
  | some p => rfl
  | none =>
    cases definition? stop ts with
    | some p => dsimp only; cases distinct p.2.1 <;> rfl
    | none => rfl

theorem kindOf_shift (k stop : Nat) (ts : List Token) :
    kindOf (stop + k) (ts.map (Token.shift k)) = moved k (StatementKind.shift k) (kindOf stop ts) := by
  rw [kindOf_eq, kindOf_eq, assignment?_shift, definition?_shift]
  cases assignment? ts with
  | some p =>
    simp only [Option.map_some, whole_shift]
    exact moved_map (Expr.shift k) (StatementKind.shift k) (.assign p.1) (.assign p.1) (fun _ => rfl) _
  | none =>
    cases definition? stop ts with
    | some p =>
      simp only [Option.map_none, Option.map_some, definedBy, distinct_shift]
      refine moved_bind fun ps _ => ?_
      rw [whole_shift]
      exact moved_map (Expr.shift k) (StatementKind.shift k) (.define p.1 ps) (.define p.1 ps) (fun _ => rfl) _
    | none =>
      simp only [Option.map_none, whole_shift]
      exact moved_map (Expr.shift k) (StatementKind.shift k) .evaluate .evaluate (fun _ => rfl) _

/-- **Statements and their errors move with their text.** -/
theorem parse_shift (k stop : Nat) (ts : List Token) :
    parse (ts.map (Token.shift k)) (stop + k) = moved k (Statement.shift k) (parse ts stop) := by
  cases ts with
  | nil => rfl
  | cons t rest =>
    have hlast : (((t :: rest).map (Token.shift k)).getLastD (t.shift k)).span =
        ((t :: rest).getLastD t).span.shift k := by
      rw [List.getLastD_eq_getLast?, List.getLastD_eq_getLast?, List.getLast?_map]
      cases (t :: rest).getLast? <;> rfl
    simp only [List.map_cons, parse] at hlast ⊢
    rw [← List.map_cons, kindOf_shift]
    refine moved_map (StatementKind.shift k) (Statement.shift k) (fun kind => ⟨kind, _⟩) _ (fun kind => ?_) _
    rw [Statement.shift, Token.shift_span, List.map_cons, hlast, Span.shift_cover]

end Shifting

end CurveScript
