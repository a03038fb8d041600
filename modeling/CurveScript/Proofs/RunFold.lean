/-
A run as a fold over its segments.

A run is lazy: it holds the tokens that are left, and each request reads one more statement. The reference run here cuts
all tokens at their separators first and then folds over the pieces.

Results:
- `pieces_cut`: the pieces with their separators are the tokens, no separator is inside a piece, and only a last piece
  that has tokens may lack one.
- `take_eq_foldl`: the outputs and the table of a run after `n` steps are those of the fold over the first `n` pieces. The
  induction is on `n`, and `next?_pieces` gives the first piece and the pieces of what is left.
- `take_effect`: step `k` belongs to piece `k`, has the number `k + 1`, and changes the table as `Effect` says.
- `request_eq_take`, `request_after_none`: requests answer with the steps and then with `none`, after which nothing
  changes.
- `halt_eq_cut`: the outputs under `halt` are those under `goOn` up to the first error.
- `run_is_fold`: all of this for every run from its start.
-/
import CurveScript.Run
import Mathlib.Data.List.Basic

namespace CurveScript.RunFold

/-! ## Pieces -/

/-- the tokens of a statement and the separator that ends it -/
structure Piece where
  tokens : List Token
  separator : Option Token

/-- where the statement ends in the source -/
def Piece.stop (p : Piece) : Nat := segmentStop p.tokens p.separator

/-- the tokens cut at each separator; what follows the last one is a piece only if it is not empty -/
def pieces : List Token → List Piece
  | [] => []
  | t :: ts =>
    if t.isSeparator then ⟨[], some t⟩ :: pieces ts
    else
      match pieces ts with
      | [] => [⟨[t], none⟩]
      | p :: ps => ⟨t :: p.tokens, p.separator⟩ :: ps

/-- the pieces are cut from the tokens exactly at the separators -/
structure Cut (ts : List Token) (ps : List Piece) : Prop where
  joined : ps.flatMap (fun p => p.tokens ++ p.separator.toList) = ts
  inner : ∀ p ∈ ps, ∀ t ∈ p.tokens, t.isSeparator = false
  ended : ∀ p ∈ ps, ∀ t, p.separator = some t → t.isSeparator = true
  tail : ∀ p ∈ ps.dropLast, p.separator ≠ none
  tail_ne_nil : ∀ p ∈ ps, p.separator = none → p.tokens ≠ []

theorem pieces_cut (ts : List Token) : Cut ts (pieces ts) := by
  induction ts with
  | nil => constructor <;> simp [pieces]
  | cons t ts ih =>
    by_cases ht : t.isSeparator = true
    · rw [pieces, if_pos ht]
      refine ⟨?_, ?_, ?_, ?_, ?_⟩
      · simp [ih.joined]
      · simpa using ih.inner
      · simpa [ht] using ih.ended
      · intro p hp
        cases hps : pieces ts with
        | nil => simp [hps] at hp
        | cons q qs =>
          rw [hps, List.dropLast_cons_of_ne_nil (List.cons_ne_nil _ _), List.mem_cons] at hp
          rcases hp with rfl | hp
          · simp
          · exact ih.tail p (hps ▸ hp)
      · simpa using ih.tail_ne_nil
    · rw [pieces, if_neg ht]
      have hf : t.isSeparator = false := by simpa using ht
      cases hps : pieces ts with
      | nil =>
        have hts : ts = [] := by simpa [hps] using ih.joined.symm
        constructor <;> simp [hts, hf]
      | cons q qs =>
        rw [hps] at ih
        refine ⟨?_, ?_, ?_, ?_, ?_⟩
        · simpa using ih.joined
        · have := ih.inner
          simp only [List.forall_mem_cons] at this ⊢
          exact ⟨⟨hf, this.1⟩, this.2⟩
        · simpa using ih.ended
        · have := ih.tail
          cases qs with
          | nil => simp
          | cons r rs => simpa using this
        · have := ih.tail_ne_nil
          simp only [List.forall_mem_cons] at this ⊢
          exact ⟨fun _ => List.cons_ne_nil _ _, this.2⟩

/-- The next segment of a run is the first piece, and what is left has the other pieces. -/
theorem next?_pieces (ts : List Token) :
    match Segment.next? ts with
    | none => pieces ts = []
    | some g => ∃ p, pieces ts = p :: pieces g.rest ∧ p.tokens = g.tokens ∧ p.stop = g.stop := by
  suffices h : ts ≠ [] → pieces ts = ⟨ts.takeWhile fun t => !t.isSeparator,
      (ts.dropWhile fun t => !t.isSeparator).head?⟩ :: pieces ((ts.dropWhile fun t => !t.isSeparator).drop 1) by
    cases ts with
    | nil => rfl
    | cons t ts => exact ⟨_, h (List.cons_ne_nil t ts), rfl, rfl⟩
  intro hne
  induction ts with
  | nil => exact absurd rfl hne
  | cons t ts ih =>
    by_cases ht : t.isSeparator = true
    · simp [pieces, ht]
    · have hf : t.isSeparator = false := by simpa using ht
      cases ts with
      | nil => simp [pieces, hf]
      | cons u us =>
        have := ih (List.cons_ne_nil u us)
        rw [pieces, if_neg ht, this]
        simp [hf]

/-! ## The reference run -/

/-- the verdict on a piece, with the table and the next identity after it -/
structure Judgement where
  verdict : Verdict
  table : Bindings Value
  nextId : Nat

/-- the judgement on a piece; a failure changes neither the table nor the next identity -/
def judge (registry : Registry) (table : Bindings Value) (id : Nat) (p : Piece) : Judgement :=
  match Statement.parse p.tokens p.stop with
  | .error e => ⟨.unreadable e, table, id⟩
  | .ok s =>
    match s.kind.execute registry table id with
    | .ok ((v, table'), id') => ⟨.evaluated s.span (.ok v), table', id'⟩
    | .error f => ⟨.evaluated s.span (.error f), table, id⟩

/-- whether a run stops after the verdict -/
def ends (policy : ErrorPolicy) : Verdict → Bool
  | .unreadable _ => true
  | .evaluated _ (.ok _) => false
  | .evaluated _ (.error _) => decide (policy = .halt)

/-- a reference run after some pieces -/
structure Progress where
  outputs : List Output
  table : Bindings Value
  nextId : Nat
  stopped : Bool

/-- one more piece; after the run has stopped, pieces are ignored -/
def advance (registry : Registry) (policy : ErrorPolicy) (p : Progress) (piece : Piece) : Progress :=
  if p.stopped then p
  else
    let j := judge registry p.table p.nextId piece
    ⟨p.outputs ++ [Step.output ⟨p.outputs.length + 1, j.verdict⟩], j.table, j.nextId, ends policy j.verdict⟩

/-- the reference run over the first `n` pieces of the tokens -/
def reference (registry : Registry) (policy : ErrorPolicy) (tokens : List Token) (table : Bindings Value) (id n : Nat) :
    Progress :=
  ((pieces tokens).take n).foldl (advance registry policy) ⟨[], table, id, false⟩

theorem foldl_advance_stopped (registry : Registry) (policy : ErrorPolicy) {p : Progress} (h : p.stopped = true)
    (ps : List Piece) : ps.foldl (advance registry policy) p = p := by
  induction ps with
  | nil => rfl
  | cons q qs ih => rw [List.foldl_cons, advance, if_pos h, ih]

/-! ## Steps -/

variable (registry : Registry) (policy : ErrorPolicy)

theorem step?_of_finished {r : Run} (h : r.finished = true) : r.step? registry policy = none := by
  rw [Run.step?, if_pos h]

/-- the step of a run on its first piece -/
def stepOf (r : Run) (j : Judgement) : Step := ⟨r.statements + 1, j.verdict⟩

/-- the run after its first piece, when `rest` is left -/
def runAfter (r : Run) (rest : List Token) (j : Judgement) : Run :=
  ⟨rest, r.statements + 1, j.table, j.nextId, ends policy j.verdict⟩

/-- A run that is not finished steps by the judgement on its first piece, and ends after its last one. -/
theorem step?_eq {r : Run} (h : r.finished = false) :
    (pieces r.tokens = [] ∧ r.step? registry policy = none) ∨
    ∃ g p, Segment.next? r.tokens = some g ∧ pieces r.tokens = p :: pieces g.rest ∧
      r.step? registry policy = some (stepOf r (judge registry r.table r.nextId p),
        runAfter policy r g.rest (judge registry r.table r.nextId p)) := by
  have hnext := next?_pieces r.tokens
  rw [Run.step?, if_neg (by simp [h])]
  cases hg : Segment.next? r.tokens with
  | none => rw [hg] at hnext; exact Or.inl ⟨hnext, rfl⟩
  | some g =>
    rw [hg] at hnext
    obtain ⟨p, hp, htokens, hstop⟩ := hnext
    refine Or.inr ⟨g, p, rfl, hp, ?_⟩
    simp only [judge, htokens, hstop]
    cases hparse : Statement.parse g.tokens g.stop with
    | error e => rfl
    | ok s =>
      cases hrun : s.kind.execute registry r.table r.nextId with
      | error f => simp only [hrun, stepOf, runAfter, ends]
      | ok x => simp only [hrun, stepOf, runAfter, ends, h]

theorem take_of_finished (n : Nat) {r : Run} (h : r.finished = true) :
    (r.take registry policy n).1 = [] ∧ (r.take registry policy n).2.1 = r := by
  cases n with
  | zero => exact ⟨rfl, rfl⟩
  | succ n =>
    rw [Run.take, step?_of_finished registry policy h]
    exact ⟨rfl, by simp [← h]⟩

theorem take_succ_none (n : Nat) {r : Run} (h : r.step? registry policy = none) :
    r.take registry policy (n + 1) = ([], { r with finished := true }, true) := by
  rw [Run.take, h]

theorem take_succ_some (n : Nat) {r r' : Run} {s : Step} (h : r.step? registry policy = some (s, r')) :
    r.take registry policy (n + 1) =
      (s :: (r'.take registry policy n).1, (r'.take registry policy n).2.1, (r'.take registry policy n).2.2) := by
  rw [Run.take, h]

/-- **Steps fold.** A run that is not finished, beside a reference run with as many outputs and the same table: `n` steps
of the one are `n` pieces of the other. -/
theorem take_eq_foldl (n : Nat) {r : Run} (h : r.finished = false) {outputs : List Output}
    (hcount : outputs.length = r.statements) :
    let ref := ((pieces r.tokens).take n).foldl (advance registry policy) ⟨outputs, r.table, r.nextId, false⟩
    ref.outputs = outputs ++ (r.take registry policy n).1.map Step.output ∧
      ref.table = (r.take registry policy n).2.1.table := by
  induction n generalizing r outputs with
  | zero => simp [Run.take]
  | succ n ih =>
    rcases step?_eq registry policy h with ⟨hp, hs⟩ | ⟨g, p, -, hp, hs⟩
    · rw [hp, take_succ_none registry policy n hs]; simp
    · rw [hp, take_succ_some registry policy n hs, List.take_succ_cons, List.foldl_cons, advance, if_neg (by simp), hcount]
      set j := judge registry r.table r.nextId p
      by_cases hends : ends policy j.verdict = true
      · have hfin : (runAfter policy r g.rest j).finished = true := hends
        rw [foldl_advance_stopped registry policy (by exact hends), (take_of_finished registry policy n hfin).1,
          (take_of_finished registry policy n hfin).2]
        exact ⟨rfl, rfl⟩
      · have hgo : ends policy j.verdict = false := by simpa using hends
        have hout : (outputs ++ [Step.output (stepOf r j)]).length = (runAfter policy r g.rest j).statements := by
          simp [hcount, runAfter]
        have hrec := ih (r := runAfter policy r g.rest j) hgo hout
        simp only [runAfter, stepOf, hgo, List.append_assoc, List.singleton_append] at hrec ⊢
        exact hrec

/-! ## What a piece does to the table -/

/-- the value of an expression that stands in no function -/
def valueOf (table : Bindings Value) (id : Nat) (e : Expr) : Except Failure (Value × Nat) :=
  evaluate (callClosure maxCalls) (.global table registry) e id

theorem execute_evaluate (table : Bindings Value) (id : Nat) (e : Expr) :
    (StatementKind.evaluate e).execute registry table id =
      (valueOf registry table id e).map fun x => ((x.1, table), x.2) := by
  simp only [StatementKind.execute, valueOf, bind, StateT.bind]
  cases evaluate (callClosure maxCalls) (.global table registry) e id <;> rfl

theorem execute_assign (table : Bindings Value) (id : Nat) (name : String) (e : Expr) :
    (StatementKind.assign name e).execute registry table id =
      (valueOf registry table id e).map fun x => ((.unit, table.set name x.1), x.2) := by
  simp only [StatementKind.execute, valueOf, bind, StateT.bind]
  cases evaluate (callClosure maxCalls) (.global table registry) e id <;> rfl

/-- What a piece may do: an assignment or a definition that succeeds binds its name and no other, and nothing else
changes the table. -/
inductive Effect (table : Bindings Value) (id : Nat) (p : Piece) : Judgement → Prop where
  | unreadable {e : ParseError} (h : Statement.parse p.tokens p.stop = .error e) :
      Effect table id p ⟨.unreadable e, table, id⟩
  | empty {span : Span} (h : Statement.parse p.tokens p.stop = .ok ⟨.empty, span⟩) :
      Effect table id p ⟨.evaluated span (.ok .unit), table, id⟩
  | evaluated {span : Span} {e : Expr} {v : Value} {id' : Nat}
      (h : Statement.parse p.tokens p.stop = .ok ⟨.evaluate e, span⟩) (hv : valueOf registry table id e = .ok (v, id')) :
      Effect table id p ⟨.evaluated span (.ok v), table, id'⟩
  | assigned {span : Span} {name : String} {e : Expr} {v : Value} {id' : Nat} {table' : Bindings Value}
      (h : Statement.parse p.tokens p.stop = .ok ⟨.assign name e, span⟩) (hv : valueOf registry table id e = .ok (v, id'))
      (hset : ∀ x, table'.get? x = if x = name then some v else table.get? x) :
      Effect table id p ⟨.evaluated span (.ok .unit), table', id'⟩
  | defined {span : Span} {name : String} {params : List String} {body : Expr} {table' : Bindings Value}
      (h : Statement.parse p.tokens p.stop = .ok ⟨.define name params body, span⟩)
      (hset : ∀ x, table'.get? x =
        if x = name then some (.function ⟨some name, id, .script ⟨params, body, table, registry⟩, none⟩)
        else table.get? x) :
      Effect table id p ⟨.evaluated span (.ok .unit), table', id + 1⟩
  | failed {s : Statement} {e : Expr} {f : Failure} (h : Statement.parse p.tokens p.stop = .ok s)
      (he : s.kind = .evaluate e ∨ ∃ name, s.kind = .assign name e) (hv : valueOf registry table id e = .error f) :
      Effect table id p ⟨.evaluated s.span (.error f), table, id⟩

theorem judge_effect (table : Bindings Value) (id : Nat) (p : Piece) :
    Effect registry table id p (judge registry table id p) := by
  unfold judge
  cases hparse : Statement.parse p.tokens p.stop with
  | error e => exact .unreadable hparse
  | ok s =>
    obtain ⟨kind, span⟩ := s
    cases kind with
    | empty => exact .empty hparse
    | evaluate e =>
      simp only [execute_evaluate]
      cases hv : valueOf registry table id e with
      | ok x => exact .evaluated hparse hv
      | error f => exact .failed hparse (Or.inl rfl) hv
    | assign name e =>
      simp only [execute_assign]
      cases hv : valueOf registry table id e with
      | ok x => exact .assigned hparse hv fun y => table.get?_set name y x.1
      | error f => exact .failed hparse (Or.inr ⟨name, rfl⟩) hv
    | define name params body => exact .defined hparse fun y => table.get?_set name y _

/-- **A step belongs to its piece.** Step `k` is on piece `k`, has the next number, and takes the table and the identities
as the steps before it left them to where it leaves them. -/
theorem take_effect (k n : Nat) {r : Run} (h : r.finished = false) {s : Step}
    (hs : (r.take registry policy n).1[k]? = some s) :
    s.number = r.statements + k + 1 ∧ ∃ p, (pieces r.tokens)[k]? = some p ∧
      Effect registry (r.take registry policy k).2.1.table (r.take registry policy k).2.1.nextId p
        ⟨s.verdict, (r.take registry policy (k + 1)).2.1.table, (r.take registry policy (k + 1)).2.1.nextId⟩ := by
  induction k generalizing r n with
  | zero =>
    cases n with
    | zero => simp [Run.take] at hs
    | succ n =>
      rcases step?_eq registry policy h with ⟨hp, hstep⟩ | ⟨g, p, -, hp, hstep⟩
      · rw [take_succ_none registry policy n hstep] at hs; simp at hs
      · rw [take_succ_some registry policy n hstep] at hs
        have hs' : stepOf r (judge registry r.table r.nextId p) = s := by simpa using hs
        rw [take_succ_some registry policy 0 hstep, ← hs']
        refine ⟨rfl, p, by rw [hp]; rfl, ?_⟩
        exact judge_effect registry r.table r.nextId p
  | succ k ih =>
    cases n with
    | zero => simp [Run.take] at hs
    | succ n =>
      rcases step?_eq registry policy h with ⟨hp, hstep⟩ | ⟨g, p, -, hp, hstep⟩
      · rw [take_succ_none registry policy n hstep] at hs; simp at hs
      · rw [take_succ_some registry policy n hstep, List.getElem?_cons_succ] at hs
        have hgo : (runAfter policy r g.rest (judge registry r.table r.nextId p)).finished = false := by
          by_contra hfin
          rw [(take_of_finished registry policy n (by simpa using hfin)).1] at hs
          simp at hs
        obtain ⟨hnumber, q, hq, heffect⟩ := ih n hgo hs
        rw [take_succ_some registry policy k hstep, take_succ_some registry policy (k + 1) hstep, hp]
        refine ⟨?_, q, hq, heffect⟩
        rw [hnumber]
        simp only [runAfter]
        omega

/-! ## Requests -/

/-- one request for an output: the next step, or `none`, after which the run is finished -/
def next (r : Run) : Option Step × Run :=
  match r.step? registry policy with
  | none => (none, { r with finished := true })
  | some (s, r') => (some s, r')

/-- the answers to so many requests, and the run after them -/
def request : Nat → Run → List (Option Step) × Run
  | 0, r => ([], r)
  | n + 1, r => ((next registry policy r).1 :: (request n (next registry policy r).2).1,
      (request n (next registry policy r).2).2)

theorem request_of_finished (n : Nat) {r : Run} (h : r.finished = true) :
    request registry policy n r = (List.replicate n none, r) := by
  have hnext : next registry policy r = (none, r) := by
    rw [next, step?_of_finished registry policy h]
    simp [← h]
  induction n with
  | zero => rfl
  | succ n ih => rw [request, hnext, ih]; rfl

/-- Requests are answered with the steps of the run, and with `none` when there are no more. -/
theorem request_eq_take (n : Nat) (r : Run) :
    request registry policy n r = ((r.take registry policy n).1.map some ++
      List.replicate (n - (r.take registry policy n).1.length) none, (r.take registry policy n).2.1) := by
  induction n generalizing r with
  | zero => rfl
  | succ n ih =>
    cases hs : r.step? registry policy with
    | none =>
      have hnext : next registry policy r = (none, { r with finished := true }) := by rw [next, hs]
      rw [request, hnext, take_succ_none registry policy n hs, request_of_finished registry policy n rfl]
      rfl
    | some x =>
      have hnext : next registry policy r = (some x.1, x.2) := by rw [next, hs]
      rw [request, hnext, take_succ_some registry policy n hs, ih]
      simp

theorem request_add (m n : Nat) (r : Run) :
    request registry policy (m + n) r = ((request registry policy m r).1 ++
      (request registry policy n (request registry policy m r).2).1,
      (request registry policy n (request registry policy m r).2).2) := by
  induction m generalizing r with
  | zero => simp [request]
  | succ m ih => rw [Nat.succ_add, request, ih]; rfl

/-- **Nothing after the end.** From the first `none` on, every answer is `none` and the run stays the same. -/
theorem request_after_none (k : Nat) (r : Run) (h : (next registry policy (request registry policy k r).2).1 = none)
    (m : Nat) : request registry policy (k + 1 + m) r =
      ((request registry policy (k + 1) r).1 ++ List.replicate m none, (request registry policy (k + 1) r).2) := by
  have hfin : (request registry policy (k + 1) r).2.finished = true := by
    rw [request_add]
    simp only [request]
    cases hs : (request registry policy k r).2.step? registry policy with
    | none => simp [next, hs]
    | some x => simp [next, hs] at h
  rw [request_add, request_of_finished registry policy m hfin]

/-! ## The two policies -/

/-- the outputs up to the first error, and this error -/
def throughFirstError : List Output → List Output
  | [] => []
  | .ok v :: os => .ok v :: throughFirstError os
  | .error e :: _ => [.error e]

/-- **Halting cuts.** The outputs under `halt` are those under `goOn` up to the first error. -/
theorem halt_eq_cut (n : Nat) (r : Run) :
    (r.take registry .halt n).1.map Step.output = throughFirstError ((r.take registry .goOn n).1.map Step.output) := by
  induction n generalizing r with
  | zero => rfl
  | succ n ih =>
    cases hfin : r.finished with
    | true => rw [(take_of_finished registry _ _ hfin).1, (take_of_finished registry _ _ hfin).1]; rfl
    | false =>
      rcases step?_eq registry .halt hfin with ⟨hp, hs⟩ | ⟨g, p, hg, hp, hs⟩ <;>
        rcases step?_eq registry .goOn hfin with ⟨hp', hs'⟩ | ⟨g', p', hg', hp', hs'⟩
      · rw [take_succ_none registry _ n hs, take_succ_none registry _ n hs']; rfl
      · rw [hp] at hp'; cases hp'
      · rw [hp] at hp'; cases hp'
      · -- the same piece under both policies, and the same judgement of it
        obtain rfl : g = g' := Option.some.inj (hg.symm.trans hg')
        obtain rfl : p = p' := (List.cons.inj (hp.symm.trans hp')).1
        rw [take_succ_some registry _ n hs, take_succ_some registry _ n hs', List.map_cons, List.map_cons]
        set j := judge registry r.table r.nextId p
        cases hv : j.verdict with
        | unreadable e =>
          have hstop : (runAfter .halt r g.rest j).finished = true := by simp [runAfter, ends, hv]
          rw [(take_of_finished registry _ n hstop).1]
          simp [stepOf, Step.output, hv, throughFirstError]
        | evaluated span result =>
          cases result with
          | error f =>
            have hstop : (runAfter .halt r g.rest j).finished = true := by simp [runAfter, ends, hv]
            rw [(take_of_finished registry _ n hstop).1]
            simp [stepOf, Step.output, hv, throughFirstError]
          | ok v =>
            have hsame : runAfter .halt r g.rest j = runAfter .goOn r g.rest j := by simp [runAfter, ends, hv]
            rw [hsame, ih]
            simp [stepOf, Step.output, hv, throughFirstError]

/-! ## Main result -/

/-- **A run is the fold over its segments.** For all tokens, tables, policies and numbers of requests: the answers are
the outputs of the reference run over the first `n` pieces and then `none`, with the same table, and so are the steps
that a batch of `n` takes; the pieces are the tokens cut at the separators; step `k` belongs to piece `k`, is numbered
`k + 1` and changes the table as `Effect` says; after the first `none` nothing changes; and the outputs under `halt` are
those under `goOn` up to the first error. -/
theorem run_is_fold (tokens : List Token) (table : Bindings Value) (id n : Nat) :
    let r := Run.start tokens table id
    let ref := reference registry policy tokens table id n
    ((request registry policy n r).1.map (Option.map Step.output) =
        ref.outputs.map some ++ List.replicate (n - ref.outputs.length) none ∧
      (request registry policy n r).2.table = ref.table) ∧
    ((r.take registry policy n).1.map Step.output = ref.outputs ∧ (r.take registry policy n).2.1.table = ref.table) ∧
    Cut tokens (pieces tokens) ∧
    (∀ k s, (r.take registry policy n).1[k]? = some s → s.number = k + 1 ∧ ∃ p, (pieces tokens)[k]? = some p ∧
      Effect registry (r.take registry policy k).2.1.table (r.take registry policy k).2.1.nextId p
        ⟨s.verdict, (r.take registry policy (k + 1)).2.1.table, (r.take registry policy (k + 1)).2.1.nextId⟩) ∧
    ((next registry policy (request registry policy n r).2).1 = none →
      ∀ m, request registry policy (n + 1 + m) r =
        ((request registry policy (n + 1) r).1 ++ List.replicate m none, (request registry policy (n + 1) r).2)) ∧
    (r.take registry .halt n).1.map Step.output =
      throughFirstError ((r.take registry .goOn n).1.map Step.output) := by
  intro r ref
  obtain ⟨houtputs, htable⟩ := take_eq_foldl registry policy n (show r.finished = false from rfl)
    (show ([] : List Output).length = r.statements from rfl)
  have houtputs' : (r.take registry policy n).1.map Step.output = ref.outputs := houtputs.symm
  have htable' : (r.take registry policy n).2.1.table = ref.table := htable.symm
  refine ⟨⟨?_, ?_⟩, ⟨houtputs', htable'⟩, pieces_cut tokens, ?_, ?_, halt_eq_cut registry n r⟩
  · rw [request_eq_take, ← houtputs']
    simp
  · rw [request_eq_take, htable']
  · intro k s hs
    have heffect := take_effect registry policy k n (r := r) rfl hs
    rw [show r.statements = 0 from rfl, Nat.zero_add] at heffect
    exact heffect
  · exact request_after_none registry policy n r

end CurveScript.RunFold
