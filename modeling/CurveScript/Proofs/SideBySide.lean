/-
Two runs side by side.

The runs read the same tokens, the second one from a place `k` bytes further on and after `m` more statements, and their
tables mean alike things by the names that count. They take the same steps: one step of both keeps the relation
`RunsAlike`, and so do any number of steps.

Results:
- `next?_shift`: the next segment of tokens that were moved.
- `step?_alike`: one step of both.
- `take_alike`, `toEnd_alike`: any number of steps, and all of them.
-/
import CurveScript.Proofs.Invariants
import CurveScript.Proofs.Likeness

namespace CurveScript.SideBySide

open CurveScript.Likeness CurveScript.Shifting

/-! ## Segments -/

/-- the segment moved by `k` bytes -/
def segmentShift (k : Nat) (g : Segment) : Segment :=
  ⟨g.tokens.map (Token.shift k), g.stop + k, g.rest.map (Token.shift k)⟩

theorem segmentStop_shift (k : Nat) {tokens : List Token} {separator : Option Token}
    (h : tokens ≠ [] ∨ separator ≠ none) :
    segmentStop (tokens.map (Token.shift k)) (separator.map (Token.shift k)) = segmentStop tokens separator + k := by
  unfold segmentStop
  rw [List.getLast?_map]
  cases hlast : tokens.getLast? with
  | some t => rfl
  | none =>
    cases separator with
    | some t => rfl
    | none => exact absurd (List.getLast?_eq_none_iff.1 hlast) (h.resolve_right fun hne => hne rfl)

theorem next?_shift (k : Nat) (ts : List Token) :
    Segment.next? (ts.map (Token.shift k)) = (Segment.next? ts).map (segmentShift k) := by
  cases ts with
  | nil => rfl
  | cons t ts =>
    have hkind : (fun t => !Token.isSeparator t) ∘ Token.shift k = fun t => !Token.isSeparator t := rfl
    have hne : (t :: ts).takeWhile (fun t => !t.isSeparator) ≠ [] ∨
        ((t :: ts).dropWhile fun t => !t.isSeparator).head? ≠ none := by
      by_cases ht : t.isSeparator = true <;> simp [ht]
    simp only [List.map_cons, Segment.next?, Option.map_some]
    rw [← List.map_cons, List.takeWhile_map, List.dropWhile_map, hkind, List.head?_map, segmentStop_shift k hne,
      ← List.map_drop]
    rfl

/-! ## Steps -/

variable (L : Likeness) (k m : Nat)

/-- the verdicts of one statement, in the second case read `k` bytes further on -/
inductive VerdictsAlike : Verdict → Verdict → Prop where
  | unreadable (e : ParseError) : VerdictsAlike (.unreadable e) (.unreadable (e.shift k))
  | evaluated {r r'} (span : Span) (h : Outcomes (FailuresMoved k) (Alike L) r r') :
      VerdictsAlike (.evaluated span r) (.evaluated (span.shift k) r')

/-- the steps of one statement, in the second case with a number greater by `m` -/
structure StepsAlike (s s' : Step) : Prop where
  number : s'.number = s.number + m
  verdict : VerdictsAlike L k s.verdict s'.verdict

variable (names : String → Prop) (registry registry' : Registry)

/-- two runs at the same token; the names that count in their statements mean alike things -/
structure RunsAlike (r r' : Run) : Prop where
  tokens : r'.tokens = r.tokens.map (Token.shift k)
  statements : r'.statements = r.statements + m
  tables : TablesAlike L names r.table registry r'.table registry'
  ids : L.ids r.nextId r'.nextId
  finished : r'.finished = r.finished
  counted : ∀ ts stop s, (∀ t ∈ ts, t ∈ r.tokens) → Statement.parse ts stop = .ok s →
    ∀ x, statementCounts L s.kind x → names x

variable {L k m names registry registry'} (policy : ErrorPolicy)

/-- **One step of both.** Either both runs have ended, or both take alike steps and stay alike. -/
theorem step?_alike {r r' : Run} (h : RunsAlike L k m names registry registry' r r') :
    Option.Rel (fun p p' => StepsAlike L k m p.1 p'.1 ∧ RunsAlike L k m names registry registry' p.2 p'.2)
      (r.step? registry policy) (r'.step? registry' policy) := by
  unfold Run.step?
  rw [h.finished, h.tokens, next?_shift, h.statements]
  cases hfin : r.finished with
  | true => exact .none
  | false =>
    cases hnext : Segment.next? r.tokens with
    | none => exact .none
    | some g =>
      obtain ⟨htokens, hrest⟩ := Invariants.mem_of_next? hnext
      have hcounted : ∀ ts stop s, (∀ t ∈ ts, t ∈ g.rest) → Statement.parse ts stop = .ok s →
          ∀ x, statementCounts L s.kind x → names x :=
        fun ts stop s hts => h.counted ts stop s fun t ht => hrest t (hts t ht)
      have hnumber : r.statements + m + 1 = r.statements + 1 + m := by omega
      simp only [Bool.false_eq_true, if_false, Option.map_some, segmentShift, parse_shift]
      cases hparse : Statement.parse g.tokens g.stop with
      | error e => exact .some ⟨⟨hnumber, .unreadable e⟩, ⟨rfl, hnumber, h.tables, h.ids, rfl, hcounted⟩⟩
      | ok s =>
        have hrun := execute_alike k h.tables s.kind (h.counted _ _ _ htokens hparse) _ _ h.ids
        simp only [moved, Statement.shift]
        generalize s.kind.execute registry r.table r.nextId = x,
          (s.kind.shift k).execute registry' r'.table r'.nextId = x' at hrun ⊢
        cases hrun with
        | error he =>
          exact .some ⟨⟨hnumber, .evaluated _ (.error he)⟩, ⟨rfl, hnumber, h.tables, h.ids, rfl, hcounted⟩⟩
        | ok ha =>
          exact .some ⟨⟨hnumber, .evaluated _ (.ok ha.1.1)⟩, ⟨rfl, hnumber, ha.1.2, ha.2, rfl, hcounted⟩⟩

/-- **Any number of steps of both.** -/
theorem take_alike (n : Nat) {r r' : Run} (h : RunsAlike L k m names registry registry' r r') :
    List.Forall₂ (StepsAlike L k m) (r.take registry policy n).1 (r'.take registry' policy n).1 ∧
      RunsAlike L k m names registry registry' (r.take registry policy n).2.1 (r'.take registry' policy n).2.1 ∧
      (r.take registry policy n).2.2 = (r'.take registry' policy n).2.2 := by
  induction n generalizing r r' with
  | zero => exact ⟨.nil, h, rfl⟩
  | succ n ih =>
    have hstep := step?_alike policy h
    unfold Run.take
    generalize r.step? registry policy = x, r'.step? registry' policy = x' at hstep ⊢
    cases hstep with
    | none => exact ⟨.nil, ⟨h.tokens, h.statements, h.tables, h.ids, rfl, h.counted⟩, rfl⟩
    | some hs =>
      obtain ⟨hsteps, hlast, hended⟩ := ih hs.2
      exact ⟨.cons hs.1 hsteps, hlast, hended⟩

/-- **All steps of both.** -/
theorem toEnd_alike {r r' : Run} (h : RunsAlike L k m names registry registry' r r') :
    List.Forall₂ (StepsAlike L k m) (r.toEnd registry policy).1 (r'.toEnd registry' policy).1 ∧
      RunsAlike L k m names registry registry' (r.toEnd registry policy).2.1 (r'.toEnd registry' policy).2.1 := by
  obtain ⟨hsteps, hlast, -⟩ := take_alike policy (r.tokens.length + 1) h
  have hlength : r'.tokens.length = r.tokens.length := by rw [h.tokens, List.length_map]
  unfold Run.toEnd
  rw [hlength]
  exact ⟨hsteps, hlast⟩

end CurveScript.SideBySide
