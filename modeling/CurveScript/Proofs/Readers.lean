/-
What each reader of expressions does, in one equation.

A reader returns what it read and the tokens that are left, with a proof that it took some. `bare` forgets the proof, so
that readers on equal tokens can be compared, and each reader has an equation in terms of the bare results of the readers
that it calls. Other modules cite these equations and open no reader.

Results:
- `bare_chain`, `bare_chainRest_*`, `bare_arguments_*`, `bare_calls_*`, `bare_parameters_*`, `bare_primary_*`,
  `bare_power`, `bare_unary_*`: the equations, one for each way that the next token can decide.
- `distinct_eq_ok`: which parameter lists are accepted.
-/
import CurveScript.Statement
import Mathlib.Data.List.Nodup

namespace CurveScript.Readers

open CurveScript.Parser

/-- a result with the tokens left, without the proof that some were taken -/
def bare {α : Type} {p : List Token → Prop} (x : Except ParseError (α × { rest : List Token // p rest })) :
    Except ParseError (α × List Token) :=
  match x with
  | .ok q => .ok (q.1, q.2.1)
  | .error e => .error e

theorem bind_eq_ok {ε α β : Type} {x : Except ε α} {f : α → Except ε β} {b : β} (h : (x >>= f) = .ok b) :
    ∃ a, x = .ok a ∧ f a = .ok b := by
  cases x with
  | error e => cases h
  | ok a => exact ⟨a, rfl, h⟩

theorem map_eq_ok {ε α β : Type} {x : Except ε α} {f : α → β} {b : β} (h : x.map f = .ok b) :
    ∃ a, x = .ok a ∧ f a = b := by
  cases x with
  | error e => cases h
  | ok a => cases h; exact ⟨a, rfl, rfl⟩

theorem map_eq_error {ε α β : Type} {x : Except ε α} {f : α → β} {e : ε} (h : x.map f = .error e) : x = .error e := by
  cases x with
  | error e' =>
    cases h
    rfl
  | ok a => cases h

theorem exists_of_isOk {ε α : Type} {x : Except ε α} (h : x.isOk = true) : ∃ a, x = .ok a := by
  cases x with
  | error e => cases h
  | ok a => exact ⟨a, rfl⟩

@[simp] theorem ok_bind {ε α β : Type} (a : α) (f : α → Except ε β) : ((.ok a : Except ε α) >>= f) = f a := rfl

/-! ## Chains of operators -/

variable (table : Symbol → Option BinaryOperator) (operand : Reader Expr)

theorem bare_chain (ts : List Token) :
    bare (chain table operand ts) = bare (operand ts) >>= fun q => bare (chainRest table operand q.1 q.2) := by
  unfold chain
  cases operand ts with
  | error e => rfl
  | ok q =>
    simp only [bare, ok_bind]
    cases chainRest table operand q.1 q.2.1 <;> rfl

theorem bare_chainRest_nil (l : Expr) : bare (chainRest table operand l []) = .ok (l, []) := by
  rw [chainRest]; rfl

theorem bare_chainRest_stop (l : Expr) {t : Token} (rest : List Token) (h : operatorIn? table t = none) :
    bare (chainRest table operand l (t :: rest)) = .ok (l, t :: rest) := by
  rw [chainRest]
  split
  · rfl
  · next hop => rw [h] at hop; cases hop

theorem bare_chainRest_step (l : Expr) {t : Token} {op : BinaryOperator} (rest : List Token)
    (h : operatorIn? table t = some op) :
    bare (chainRest table operand l (t :: rest)) = bare (operand rest) >>= fun q =>
      shallow (operation op l q.1) t.span >>= fun tree => bare (chainRest table operand tree q.2) := by
  rw [chainRest]
  split
  · next hop => rw [h] at hop; cases hop
  · next op' hop =>
    obtain rfl : op = op' := Option.some.inj (h.symm.trans hop)
    cases operand rest with
    | error e => rfl
    | ok q =>
      simp only [bare, ok_bind]
      cases shallow (operation op l q.1) t.span with
      | error e => rfl
      | ok tree =>
        simp only [ok_bind]
        cases chainRest table operand tree q.2.1 <;> rfl

/-! ## Arguments and calls -/

variable (stop : Nat) (argument : Reader Expr)

/-- a list of arguments with the tokens left, without the proof that some were taken -/
def bareList {p : List Token → Prop} (x : Except ParseError (List Expr × Span × { rest : List Token // p rest })) :
    Except ParseError ((List Expr × Span) × List Token) :=
  match x with
  | .ok q => .ok ((q.1, q.2.1), q.2.2.1)
  | .error e => .error e

/-- what comes after an argument -/
def afterArgument (e : Expr) : List Token → Except ParseError ((List Expr × Span) × List Token)
  | [] => .error (missing stop .commaOrParen)
  | t :: rest =>
    match t.kind with
    | .rightParen => .ok (([e], t.span), rest)
    | .comma => bareList (argumentsRest stop argument rest) >>= fun q => .ok ((e :: q.1.1, q.1.2), q.2)
    | _ => .error (unexpected t .commaOrParen)

theorem bare_argumentsRest (ts : List Token) :
    bareList (argumentsRest stop argument ts) = bare (argument ts) >>= fun q => afterArgument stop argument q.1 q.2 := by
  rw [argumentsRest]
  cases argument ts with
  | error e => rfl
  | ok q =>
    obtain ⟨e, rest, hrest⟩ := q
    simp only [bare, ok_bind]
    cases rest with
    | nil => rfl
    | cons t rest =>
      simp only [afterArgument]
      generalize t.kind = kind
      cases kind with
      | comma => cases argumentsRest stop argument rest <;> rfl
      | _ => rfl

theorem bare_arguments_close {t : Token} (rest : List Token) (h : t.kind = .rightParen) :
    bareList (arguments stop argument (t :: rest)) = .ok (([], t.span), rest) := by
  rw [arguments]; simp only [h]; rfl

theorem bare_arguments_open {t : Token} (rest : List Token) (h : t.kind ≠ .rightParen) :
    bareList (arguments stop argument (t :: rest)) = bareList (argumentsRest stop argument (t :: rest)) := by
  rw [arguments]
  split
  · next hkind => exact absurd hkind h
  · rfl

theorem bare_calls_nil (f : Expr) : bare (callsRest stop argument f []) = .ok (f, []) := by
  rw [callsRest]; rfl

theorem bare_calls_stop (f : Expr) {t : Token} (rest : List Token) (h : t.kind ≠ .leftParen) :
    bare (callsRest stop argument f (t :: rest)) = .ok (f, t :: rest) := by
  rw [callsRest]
  split
  · next hkind => exact absurd hkind h
  · rfl

theorem bare_calls_step (f : Expr) {t : Token} (rest : List Token) (h : t.kind = .leftParen) :
    bare (callsRest stop argument f (t :: rest)) = bareList (arguments stop argument rest) >>= fun q =>
      shallow (.call (f.span.cover q.1.2) f q.1.1) q.1.2 >>= fun tree => bare (callsRest stop argument tree q.2) := by
  rw [callsRest]
  simp only [h]
  cases arguments stop argument rest with
  | error e => rfl
  | ok q =>
    obtain ⟨args, close, after⟩ := q
    simp only [bareList, ok_bind]
    cases shallow (.call (f.span.cover close) f args) close with
    | error e => rfl
    | ok tree =>
      simp only [ok_bind]
      cases callsRest stop argument tree after.1 <;> rfl

/-! ## Parameters -/

/-- what comes after a parameter name -/
def afterParameter (p : String × Span) : List Token → Except ParseError (List (String × Span) × List Token)
  | [] => .error (missing stop .commaOrParen)
  | t :: rest =>
    match t.kind with
    | .rightParen => .ok ([p], rest)
    | .comma => bare (parametersRest stop rest) >>= fun q => .ok (p :: q.1, q.2)
    | _ => .error (unexpected t .commaOrParen)

theorem bare_parametersRest_name {t : Token} {s : String} (rest : List Token) (h : t.kind = .name s) :
    bare (parametersRest stop (t :: rest)) = afterParameter stop (s, t.span) rest := by
  cases rest with
  | nil => rw [parametersRest]; simp only [h]; rfl
  | cons u rest =>
    rw [parametersRest]
    simp only [h, afterParameter]
    generalize u.kind = kind
    cases kind with
    | comma => cases parametersRest stop rest <;> rfl
    | _ => rfl

theorem bare_parametersRest_other {t : Token} (rest : List Token) (h : ∀ s, t.kind ≠ .name s) :
    bare (parametersRest stop (t :: rest)) = .error (unexpected t .parameterName) := by
  rw [parametersRest]
  split
  · next s hkind => exact absurd hkind (h s)
  · rfl

/-- A list of parameters goes on with a name. -/
theorem name_of_parametersRest {ts : List Token} {q : List (String × Span) × List Token}
    (h : bare (parametersRest stop ts) = .ok q) : ∃ t rest s, ts = t :: rest ∧ t.kind = .name s := by
  cases ts with
  | nil => cases h
  | cons t rest =>
    rw [parametersRest] at h
    split at h
    · next s hkind => exact ⟨t, rest, s, rfl, hkind⟩
    · cases h

theorem bare_parameters_close {t : Token} (rest : List Token) (h : t.kind = .rightParen) :
    bare (parameters stop (t :: rest)) = .ok ([], rest) := by
  rw [parameters]; simp only [h]; rfl

theorem bare_parameters_open {t : Token} (rest : List Token) (h : t.kind ≠ .rightParen) :
    bare (parameters stop (t :: rest)) = bare (parametersRest stop (t :: rest)) := by
  rw [parameters]
  split
  · next hkind => exact absurd hkind h
  · rfl

theorem firstRepeated?_eq_none (seen : List String) (ps : List (String × Span)) :
    firstRepeated? seen ps = none ↔ (ps.map Prod.fst).Nodup ∧ ∀ s ∈ ps.map Prod.fst, s ∉ seen := by
  induction ps generalizing seen with
  | nil => simp [firstRepeated?]
  | cons p ps ih =>
    simp only [firstRepeated?, List.map_cons, List.nodup_cons, List.forall_mem_cons]
    split
    · next hmem => simp [hmem]
    · next hmem =>
      rw [ih]
      constructor
      · rintro ⟨hnodup, hseen⟩
        exact ⟨⟨fun h => hseen _ h List.mem_cons_self, hnodup⟩, hmem, fun s hs h => hseen s hs (List.mem_cons_of_mem _ h)⟩
      · rintro ⟨⟨hp, hnodup⟩, -, hseen⟩
        refine ⟨hnodup, fun s hs h => ?_⟩
        rcases List.mem_cons.1 h with rfl | h
        · exact hp hs
        · exact hseen s hs h

/-- Parameters are accepted if no name is declared twice. -/
theorem distinct_eq_ok {ps : List (String × Span)} {names : List String} :
    distinct ps = .ok names ↔ names.Nodup ∧ names = ps.map Prod.fst := by
  have hnone := firstRepeated?_eq_none [] ps
  unfold distinct
  cases hf : firstRepeated? [] ps with
  | none =>
    have hnodup : (ps.map Prod.fst).Nodup := (hnone.1 hf).1
    constructor
    · intro h; cases h; exact ⟨hnodup, rfl⟩
    · rintro ⟨-, rfl⟩; rfl
  | some p =>
    constructor
    · intro h; cases h
    · rintro ⟨hnodup, rfl⟩
      rw [hnone.2 ⟨hnodup, by simp⟩] at hf
      cases hf

/-! ## Primaries -/

/-- what comes after an expression in parentheses -/
def closeParen (opening : Span) (e : Expr) : List Token → Except ParseError (Expr × List Token)
  | [] => .error (missing stop .closingParen)
  | t :: rest =>
    match t.kind with
    | .rightParen => .ok (e.withSpan (opening.cover t.span), rest)
    | _ => .error (unexpected t .closingParen)

theorem bare_parenthesised (inner : Reader Expr) (opening : Span) (ts : List Token) :
    bare (parenthesised stop inner opening ts) = bare (inner ts) >>= fun q => closeParen stop opening q.1 q.2 := by
  unfold parenthesised
  cases inner ts with
  | error e => rfl
  | ok q =>
    obtain ⟨e, rest, hrest⟩ := q
    simp only [bare, ok_bind]
    cases rest with
    | nil => rfl
    | cons t rest =>
      simp only [closeParen]
      generalize t.kind = kind
      cases kind <;> rfl

/-- what comes after the parameters of a function expression -/
def afterParameters (inner : Reader Expr) (keyword : Span) (names : List String) :
    List Token → Except ParseError (Expr × List Token)
  | [] => .error (missing stop .arrow)
  | t :: rest =>
    match t.kind with
    | .symbol .arrow => bare (inner rest) >>= fun q => .ok (.lambda (keyword.cover q.1.span) names q.1, q.2)
    | _ => .error (unexpected t .arrow)

theorem bare_lambda_open (inner : Reader Expr) (keyword : Span) {t : Token} (rest : List Token)
    (h : t.kind = .leftParen) :
    bare (lambda stop inner keyword (t :: rest)) = bare (parameters stop rest) >>= fun q =>
      distinct q.1 >>= fun names => afterParameters stop inner keyword names q.2 := by
  unfold lambda
  simp only [h]
  cases parameters stop rest with
  | error e => rfl
  | ok q =>
    obtain ⟨found, after, hafter⟩ := q
    simp only [bare, ok_bind]
    cases distinct found with
    | error e => rfl
    | ok names =>
      simp only [ok_bind]
      cases after with
      | nil => rfl
      | cons arrow body =>
        simp only [afterParameters]
        generalize arrow.kind = kind
        cases kind with
        | symbol s =>
          cases s with
          | arrow => cases inner body <;> rfl
          | _ => rfl
        | _ => rfl

theorem bare_lambda_other (inner : Reader Expr) (keyword : Span) {t : Token} (rest : List Token)
    (h : t.kind ≠ .leftParen) :
    bare (lambda stop inner keyword (t :: rest)) = .error (unexpected t .openingParen) := by
  dsimp only [lambda]
  split
  · next hkind => exact absurd hkind h
  · rfl

theorem open_of_lambda {inner : Reader Expr} {keyword : Span} {ts : List Token} {q : Expr × List Token}
    (h : bare (lambda stop inner keyword ts) = .ok q) : ∃ t rest, ts = t :: rest ∧ t.kind = .leftParen := by
  cases ts with
  | nil => cases h
  | cons t rest =>
    dsimp only [lambda] at h
    split at h
    · next hkind => exact ⟨t, rest, rfl, hkind⟩
    · cases h

/-- a primary by its first token -/
def primaryAt (inner : Reader Expr) (t : Token) (rest : List Token) : Except ParseError (Expr × List Token) :=
  match t.kind with
  | .number (.integer n) => .ok (.integer t.span n, rest)
  | .number (.float x) => .ok (.float t.span x, rest)
  | .name s => .ok (.var t.span s, rest)
  | .leftParen => bare (parenthesised stop inner t.span rest)
  | .functionKeyword => bare (lambda stop inner t.span rest)
  | _ => .error (unexpected t .expression)

theorem bare_primary_nil (inner : Reader Expr) :
    bare (primary stop inner []) = .error (missing stop .expression) := rfl

theorem bare_primary_cons (inner : Reader Expr) (t : Token) (rest : List Token) :
    bare (primary stop inner (t :: rest)) = primaryAt stop inner t rest := by
  dsimp only [primary, primaryAt]
  generalize t.kind = kind
  cases kind with
  | number n => cases n <;> rfl
  | leftParen => simp only; cases parenthesised stop inner t.span rest <;> rfl
  | functionKeyword => simp only; cases lambda stop inner t.span rest <;> rfl
  | _ => rfl

/-! ## Powers and prefix operators -/

theorem bare_postfixed (inner : Reader Expr) (ts : List Token) :
    bare (postfixed stop inner ts) = bare (primary stop inner ts) >>= fun q => bare (callsRest stop inner q.1 q.2) := by
  unfold postfixed
  cases primary stop inner ts with
  | error e => rfl
  | ok q =>
    simp only [bare, ok_bind]
    cases callsRest stop inner q.1 q.2.1 <;> rfl

/-- what comes after the base of a power, or after an operand that is none -/
def afterBase (exponent : Span → Reader Expr) (b : Expr) : List Token → Except ParseError (Expr × List Token)
  | [] => .ok (b, [])
  | t :: rest =>
    match t.kind with
    | .symbol .caret => bare (exponent b.span rest) >>= fun q => .ok (operation .pow b q.1, q.2)
    | _ => .ok (b, t :: rest)

theorem afterBase_stop (exponent : Span → Reader Expr) (b : Expr) {t : Token} (rest : List Token)
    (h : t.kind ≠ .symbol .caret) : afterBase exponent b (t :: rest) = .ok (b, t :: rest) := by
  simp only [afterBase]

theorem bare_power (inner : Reader Expr) (exponent : Span → Reader Expr) (ts : List Token) :
    bare (power stop inner exponent ts) = bare (postfixed stop inner ts) >>= fun q => afterBase exponent q.1 q.2 := by
  unfold power
  cases postfixed stop inner ts with
  | error e => rfl
  | ok q =>
    obtain ⟨b, rest, hrest⟩ := q
    simp only [bare, ok_bind]
    cases rest with
    | nil => rfl
    | cons t rest =>
      simp only [afterBase]
      generalize t.kind = kind
      cases kind with
      | symbol s =>
        cases s with
        | caret => cases exponent b.span rest <;> rfl
        | _ => rfl
      | _ => rfl

theorem bare_unary_nil (inner : Reader Expr) (operand : Span → Reader Expr) :
    bare (unary stop inner operand []) = bare (power stop inner operand []) := by
  unfold unary
  cases power stop inner operand [] <;> rfl

theorem bare_unary_unsigned (inner : Reader Expr) (operand : Span → Reader Expr) {t : Token} (rest : List Token)
    (h : prefixOperator? t = none) :
    bare (unary stop inner operand (t :: rest)) = bare (power stop inner operand (t :: rest)) := by
  dsimp only [unary]
  rw [h]

theorem bare_unary_signed (inner : Reader Expr) (operand : Span → Reader Expr) {t : Token} {op : UnaryOperator}
    (rest : List Token) (h : prefixOperator? t = some op) :
    bare (unary stop inner operand (t :: rest)) = bare (operand t.span rest) >>= fun q =>
      .ok (.unary (t.span.cover q.1.span) op q.1, q.2) := by
  dsimp only [unary]
  rw [h]
  cases operand t.span rest <;> rfl

end CurveScript.Readers
