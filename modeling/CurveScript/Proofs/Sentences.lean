/-
The statements that are accepted.

A statement is tried as an assignment, as a definition and as an expression, in that order. The trials cannot disagree:
no phrase has an assignment sign, so a list of tokens that starts like an assignment or a definition and has its sign in
the right place is nothing else.

Results:
- `kindOf_sound`, `kindOf_complete`: what a statement is read as, without its span.
- `sentence_unique`: within the limits no list of tokens is two statements.
- `parse_accepts_grammar`: what is accepted is a statement of the grammar, and a statement of the grammar is accepted
  as what it is, unless it nests too deep or is too tall; then it may only get the error at a limit.
-/
import CurveScript.Proofs.Accepting

namespace CurveScript.Sentences

open CurveScript.Parser CurveScript.Statement CurveScript.Grammar CurveScript.Readers CurveScript.Reading
open CurveScript.Accepting

/-- the tree of a statement, if it has one -/
def tree? : StatementKind → Option Expr
  | .empty => none
  | .evaluate e | .assign _ e | .define _ _ e => some e

/-- where a statement stands, if it ends before `stop` -/
def extent (stop : Nat) : List Token → Span
  | [] => .point stop
  | t :: rest => t.span.cover ((t :: rest).getLastD t).span

/-! ## Whole expressions -/

theorem whole_eq (stop : Nat) (ts : List Token) :
    whole stop ts = bare (expression stop ts) >>= fun q => finish q.1 q.2 := by
  unfold whole
  cases expression stop ts <;> rfl

theorem whole_sound {stop : Nat} {ts : List Token} {e : Expr} (h : whole stop ts = .ok e) :
    ∃ tr n, Phrase (.chain .comparison) tr n ts e ∧ n ≤ maxDepth ∧ Capped e := by
  rw [whole_eq] at h
  obtain ⟨⟨e', rest⟩, hread, h⟩ := bind_eq_ok h
  obtain ⟨tr, n, used, hused, hphrase, hn, hcap, -⟩ := expression_sound stop _ _ _ hread
  cases rest with
  | nil =>
    cases h
    rw [List.append_nil] at hused
    subst hused
    exact ⟨tr, n, hphrase, Nat.le_of_lt_succ hn, hcap⟩
  | cons t rest =>
    simp only [finish] at h
    split at h <;> cases h

theorem whole_complete {tr : Bool} {n : Nat} {ts : List Token} {e : Expr} (h : Phrase (.chain .comparison) tr n ts e)
    (stop : Nat) : Within (n ≤ maxDepth ∧ Capped e) (whole stop ts) (.ok e) := by
  have hread := expression_complete stop [] h ⟨stops_nil _, fun _ => stops_nil _⟩
  rw [List.append_nil] at hread
  rw [whole_eq]
  refine hread.bind ?_ ?_
  · rintro ⟨hn, hcap⟩
    exact Within.of_kept ⟨Nat.le_of_lt_succ hn, hcap⟩ rfl
  · rintro ⟨hn, hcap⟩
    exact ⟨Nat.lt_succ_of_le hn, hcap⟩

/-! ## Assignments and definitions -/

theorem assignment?_eq_some {ts value : List Token} {s : String} :
    assignment? ts = some (s, value) ↔ ∃ t sign, ts = t :: sign :: value ∧ t.kind = .name s ∧
      sign.kind = .symbol .assign := by
  constructor
  · intro h
    unfold assignment? at h
    split at h
    · split at h
      · next hname hsign => cases h; exact ⟨_, _, rfl, hname, hsign⟩
      · cases h
    · cases h
  · rintro ⟨t, sign, rfl, hname, hsign⟩
    simp only [assignment?, hname, hsign]

theorem definition?_eq_some {stop : Nat} {ts body : List Token} {s : String} {found : List (String × Span)} :
    definition? stop ts = some (s, found, body) ↔ ∃ t lp rest sign, ts = t :: lp :: rest ∧ t.kind = .name s ∧
      lp.kind = .leftParen ∧ bare (parameters stop rest) = .ok (found, sign :: body) ∧ sign.kind = .symbol .assign := by
  constructor
  · intro h
    unfold definition? at h
    split at h
    · next t lp rest =>
      split at h
      · next hname hopen =>
        cases hparams : parameters stop rest with
        | error e => rw [hparams] at h; cases h
        | ok q =>
          obtain ⟨params, after, hafter⟩ := q
          simp only [hparams] at h
          cases after with
          | nil => cases h
          | cons sign after =>
            simp only at h
            split at h
            · next hsign =>
              cases h
              refine ⟨t, lp, rest, sign, rfl, hname, hopen, ?_, hsign⟩
              rw [hparams]
              rfl
            · cases h
      · cases h
    · cases h
  · rintro ⟨t, lp, rest, sign, rfl, hname, hopen, hread, hsign⟩
    simp only [definition?, hname, hopen]
    cases hparams : parameters stop rest with
    | error e => rw [hparams] at hread; cases hread
    | ok q =>
      obtain ⟨params, after, hafter⟩ := q
      rw [hparams] at hread
      cases hread
      simp only [hsign]

/-- A list of tokens without an assignment sign is no assignment. -/
theorem assignment?_of_noAssign {ts : List Token} (h : ∀ t ∈ ts, NoAssign t) : assignment? ts = none := by
  rw [Option.eq_none_iff_forall_not_mem]
  rintro ⟨s, value⟩ hmem
  obtain ⟨t, sign, rfl, -, hsign⟩ := assignment?_eq_some.1 hmem
  exact h sign (by simp) hsign

/-- A list of tokens without an assignment sign is no definition. -/
theorem definition?_of_noAssign {stop : Nat} {ts : List Token} (h : ∀ t ∈ ts, NoAssign t) :
    definition? stop ts = none := by
  rw [Option.eq_none_iff_forall_not_mem]
  rintro ⟨s, found, body⟩ hmem
  obtain ⟨t, lp, rest, sign, rfl, -, -, hread, hsign⟩ := definition?_eq_some.1 hmem
  obtain ⟨used, rfl, -⟩ := parameters_sound hread
  exact h sign (by simp) hsign

/-! ## Statements -/

theorem within_map {α β : Type} {kept : Prop} {x : Except ParseError α} {a : α} (h : Within kept x (.ok a))
    (f : α → β) : Within kept (x.map f) (.ok (f a)) := by
  constructor
  · intro hkept
    rw [h.1 hkept]
    rfl
  · intro hnot
    obtain ⟨at_, hat⟩ := h.2 hnot
    exact ⟨at_, by rw [hat]; rfl⟩

/-- the statement keeps both limits as its readers check them -/
def Kept (n : Nat) (k : StatementKind) : Prop := n ≤ maxDepth ∧ ∀ e ∈ tree? k, Capped e

theorem kindOf_sound {stop : Nat} {ts : List Token} {k : StatementKind} (h : kindOf stop ts = .ok k) :
    ∃ n, Sentence n ts k ∧ Kept n k := by
  unfold kindOf at h
  cases hassign : assignment? ts with
  | some p =>
    obtain ⟨s, value⟩ := p
    obtain ⟨t, sign, rfl, hname, hsign⟩ := assignment?_eq_some.1 hassign
    simp only [hassign] at h
    obtain ⟨e, hwhole, rfl⟩ := map_eq_ok h
    obtain ⟨tr, n, hphrase, hn, hcap⟩ := whole_sound hwhole
    exact ⟨n, .assign hname hsign hphrase, hn, by simpa [tree?] using hcap⟩
  | none =>
    simp only [hassign] at h
    cases hdefine : definition? stop ts with
    | some p =>
      obtain ⟨s, found, body⟩ := p
      obtain ⟨t, lp, rest, sign, rfl, hname, hopen, hread, hsign⟩ := definition?_eq_some.1 hdefine
      obtain ⟨used, rfl, hparams⟩ := parameters_sound hread
      simp only [hdefine] at h
      cases hdistinct : distinct found with
      | error e => rw [hdistinct] at h; cases h
      | ok names =>
        obtain ⟨hnodup, rfl⟩ := distinct_eq_ok.1 hdistinct
        simp only [hdistinct] at h
        obtain ⟨e, hwhole, rfl⟩ := map_eq_ok h
        obtain ⟨tr, n, hphrase, hn, hcap⟩ := whole_sound hwhole
        exact ⟨n, .define hname hopen hparams hnodup hsign hphrase, hn, by simpa [tree?] using hcap⟩
    | none =>
      simp only [hdefine] at h
      obtain ⟨e, hwhole, rfl⟩ := map_eq_ok h
      obtain ⟨tr, n, hphrase, hn, hcap⟩ := whole_sound hwhole
      exact ⟨n, .evaluate hphrase, hn, by simpa [tree?] using hcap⟩

theorem kindOf_complete {n : Nat} {ts : List Token} {k : StatementKind} (h : Sentence n ts k) (hne : ts ≠ [])
    (stop : Nat) : Within (Kept n k) (kindOf stop ts) (.ok k) := by
  unfold kindOf
  cases h with
  | empty => exact absurd rfl hne
  | @assign tr n ts t sign s e ht hs h =>
    rw [assignment?_eq_some.2 ⟨t, sign, rfl, ht, hs⟩]
    exact (within_map (whole_complete h stop) _).congr (by simp [Kept, tree?])
  | @define tr n ps ts t lp sign s names e ht hl hp hd hs h =>
    have hassign : assignment? (t :: lp :: (ps ++ sign :: ts)) = none := by simp only [assignment?, ht, hl]
    obtain ⟨found, hfound, hread⟩ := parameters_complete stop hp (sign :: ts)
    rw [hassign, definition?_eq_some.2 ⟨t, lp, _, sign, rfl, ht, hl, hread, hs⟩]
    simp only [distinct_eq_ok.2 ⟨hd, hfound.symm⟩]
    exact (within_map (whole_complete h stop) _).congr (by simp [Kept, tree?])
  | evaluate h =>
    rw [assignment?_of_noAssign h.no_assign, definition?_of_noAssign h.no_assign]
    exact (within_map (whole_complete h stop) _).congr (by simp [Kept, tree?])

theorem parse_sound {stop : Nat} {ts : List Token} {s : Statement} (h : parse ts stop = .ok s) :
    s.span = extent stop ts ∧ ∃ n, Sentence n ts s.kind ∧ Kept n s.kind := by
  cases ts with
  | nil =>
    cases h
    exact ⟨rfl, 0, .empty, Nat.zero_le _, by simp [tree?]⟩
  | cons t rest =>
    simp only [parse] at h
    obtain ⟨k, hkind, rfl⟩ := map_eq_ok h
    exact ⟨rfl, kindOf_sound hkind⟩

theorem parse_complete {n : Nat} {ts : List Token} {k : StatementKind} (h : Sentence n ts k) (stop : Nat) :
    Within (Kept n k) (parse ts stop) (.ok ⟨k, extent stop ts⟩) := by
  cases ts with
  | nil =>
    cases h with
    | empty => exact Within.of_kept ⟨Nat.zero_le _, by simp [tree?]⟩ rfl
    | evaluate h =>
      obtain ⟨t, us, hts, -⟩ := h.starts
      cases hts
  | cons t rest =>
    simp only [parse]
    exact within_map (kindOf_complete h (List.cons_ne_nil t rest) stop) _

/-- Within the limits no list of tokens is two statements. -/
theorem sentence_unique {n m : Nat} {ts : List Token} {k k' : StatementKind} (h : Sentence n ts k)
    (h' : Sentence m ts k') (hkept : Kept n k) (hkept' : Kept m k') : k = k' := by
  have hk := (parse_complete h 0).1 hkept
  have hk' := (parse_complete h' 0).1 hkept'
  rw [hk] at hk'
  cases hk'
  rfl

theorem kept_of_height_le {n : Nat} {k : StatementKind} (hn : n ≤ maxDepth)
    (hheight : ∀ e ∈ tree? k, e.height ≤ maxDepth) : Kept n k :=
  ⟨hn, fun e he => capped_of_height_le (hheight e he)⟩

/-- **Statements are read exactly by the grammar.** What is accepted uses all the tokens and is what the grammar says
they are. A statement of the grammar is accepted as that, if it nests at most `maxDepth` levels deep and its tree is at
most that tall. Otherwise it is accepted as that or gets the error at a limit, and no other. -/
theorem parse_accepts_grammar (ts : List Token) (stop : Nat) :
    (∀ s, parse ts stop = .ok s → s.span = extent stop ts ∧ ∃ n, n ≤ maxDepth ∧ Sentence n ts s.kind) ∧
    (∀ n k, Sentence n ts k → n ≤ maxDepth → (∀ e ∈ tree? k, e.height ≤ maxDepth) →
      parse ts stop = .ok ⟨k, extent stop ts⟩) ∧
    (∀ n k, Sentence n ts k → parse ts stop = .ok ⟨k, extent stop ts⟩ ∨
      (∃ at_, parse ts stop = .error (tooDeep at_)) ∧ (maxDepth < n ∨ ∃ e ∈ tree? k, maxDepth < e.height)) := by
  refine ⟨?_, ?_, ?_⟩
  · intro s hs
    obtain ⟨hspan, n, hsentence, hkept⟩ := parse_sound hs
    exact ⟨hspan, n, hkept.1, hsentence⟩
  · intro n k hsentence hn hheight
    exact (parse_complete hsentence stop).1 (kept_of_height_le hn hheight)
  · intro n k hsentence
    by_cases hkept : Kept n k
    · exact Or.inl ((parse_complete hsentence stop).1 hkept)
    · refine Or.inr ⟨(parse_complete hsentence stop).2 hkept, ?_⟩
      by_contra hlimits
      rw [not_or, Nat.not_lt] at hlimits
      refine hkept (kept_of_height_le hlimits.1 ?_)
      intro e he
      by_contra hheight
      exact hlimits.2 ⟨e, he, Nat.not_le.1 hheight⟩

/-- a token of one character -/
def tokenAt (at_ : Nat) (kind : TokenKind) : Token := ⟨kind, ⟨at_, at_ + 1⟩⟩

/-- A definition that signs a power: `f(x)=-x^2`. -/
theorem signedPower_accepted :
    parse [tokenAt 0 (.name "f"), tokenAt 1 .leftParen, tokenAt 2 (.name "x"), tokenAt 3 .rightParen,
      tokenAt 4 (.symbol .assign), tokenAt 5 (.symbol .minus), tokenAt 6 (.name "x"), tokenAt 7 (.symbol .caret),
      tokenAt 8 (.number (.integer 2))] 9 =
      .ok ⟨.define "f" ["x"] (.unary ⟨5, 9⟩ .negate (.binary ⟨6, 9⟩ .pow (.var ⟨6, 7⟩ "x") (.integer ⟨8, 9⟩ 2))),
        ⟨0, 9⟩⟩ := by
  have hparams : Parameters [tokenAt 2 (.name "x"), tokenAt 3 .rightParen] ["x"] := .some (.last rfl rfl)
  have hbase : Phrase .called false 0 [tokenAt 6 (.name "x")] (.var ⟨6, 7⟩ "x") := .uncalled (.name rfl)
  have hexponent : Phrase .operand false 0 [tokenAt 8 (.number (.integer 2))] (.integer ⟨8, 9⟩ 2) :=
    .unsigned (.base (.uncalled (.integer rfl)))
  have hpower := Phrase.power hbase (t := tokenAt 7 (.symbol .caret)) rfl hexponent
  have hminus : Signs (tokenAt 5 (.symbol .minus)) .negate := ⟨.minus, rfl, by decide⟩
  have hsigned := Phrase.signed hminus (.unsigned hpower)
  have hbody : Phrase (.chain .comparison) false 2 _ _ := hsigned.ofOperand .comparison
  have hsentence := @Sentence.define _ _ _ _ (tokenAt 0 (.name "f")) (tokenAt 1 .leftParen)
    (tokenAt 4 (.symbol .assign)) _ _ _ rfl rfl hparams (by decide) rfl hbody
  exact (parse_accepts_grammar _ 9).2.1 2 _ hsentence (by decide) (by simp [tree?, Expr.height, maxDepth])

end CurveScript.Sentences
