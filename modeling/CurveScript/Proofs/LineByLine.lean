/-
Entering a script line by line, and running it as one.

A run over tokens that end in a separator stops between two statements. If no statement stopped it before, the run over
these tokens and more goes on from there like a run of its own over the rest. The rest stands further on and its
statements have greater numbers, and so the two runs are compared side by side.

Results:
- `toEnd_followedBy`: the steps over closed tokens, then those over what follows. The induction is on the pieces.
- `toEnd_newline`: a line feed at the end adds nothing but perhaps an empty statement.
- `run_two`: a text, a line feed and another text.
- `enter_alike`: any number of lines, by induction from the last one.
- `line_by_line`: both together.
Witness: `twoLines_agree`, a function that is defined in one line and called in the next.
-/
import CurveScript.Engine
import CurveScript.Proofs.LineBreaks
import CurveScript.Proofs.RunFold
import CurveScript.Proofs.SideBySide
import Mathlib.Data.List.Induction
import Mathlib.Data.List.TakeWhile

namespace CurveScript.LineByLine

open CurveScript.Likeness CurveScript.SideBySide CurveScript.RunFold CurveScript.LineBreaks
open CurveScript.Readers (map_eq_ok)

/-! ## Closed tokens -/

/-- tokens that are empty or end in a separator -/
inductive Closed : List Token → Prop where
  | nil : Closed []
  | piece {pre post : List Token} {sep : Token} (hpre : ∀ t ∈ pre, t.isSeparator = false) (hsep : sep.isSeparator = true)
      (h : Closed post) : Closed (pre ++ sep :: post)

theorem closed_concat (ts : List Token) {sep : Token} (hsep : sep.isSeparator = true) : Closed (ts ++ [sep]) := by
  have hstart : ∀ {t post}, t.isSeparator = true → Closed post → Closed (t :: post) := fun ht h => by
    rw [← List.nil_append (_ :: _)]
    exact .piece (by simp) ht h
  induction ts with
  | nil => exact hstart hsep .nil
  | cons t ts ih =>
    by_cases ht : t.isSeparator = true
    · exact hstart ht ih
    · generalize hus : ts ++ [sep] = us at ih
      cases ih with
      | nil => simp at hus
      | @piece pre post sep' hpre hsep' h =>
        rw [List.cons_append, hus, ← List.cons_append]
        refine .piece ?_ hsep' h
        simp only [List.forall_mem_cons]
        exact ⟨by simpa using ht, hpre⟩

/-- Tokens have no separator, or a first one. -/
theorem first_separator (ts : List Token) : (∀ t ∈ ts, t.isSeparator = false) ∨
    ∃ pre sep post, ts = pre ++ sep :: post ∧ (∀ t ∈ pre, t.isSeparator = false) ∧ sep.isSeparator = true := by
  induction ts with
  | nil => exact Or.inl (by simp)
  | cons t ts ih =>
    by_cases ht : t.isSeparator = true
    · exact Or.inr ⟨[], t, ts, rfl, by simp, ht⟩
    · have hf : t.isSeparator = false := by simpa using ht
      rcases ih with h | ⟨pre, sep, post, rfl, hpre, hsep⟩
      · exact Or.inl (by simpa only [List.forall_mem_cons] using ⟨hf, h⟩)
      · exact Or.inr ⟨t :: pre, sep, post, rfl, by simpa only [List.forall_mem_cons] using ⟨hf, hpre⟩, hsep⟩

theorem pieces_piece {pre post : List Token} {sep : Token} (hpre : ∀ t ∈ pre, t.isSeparator = false)
    (hsep : sep.isSeparator = true) : pieces (pre ++ sep :: post) = ⟨pre, some sep⟩ :: pieces post := by
  induction pre with
  | nil => rw [List.nil_append, pieces, if_pos hsep]
  | cons t pre ih =>
    simp only [List.forall_mem_cons] at hpre
    rw [List.cons_append, pieces, if_neg (by simp [hpre.1]), ih hpre.2]

theorem pieces_last {ts : List Token} (hne : ts ≠ []) (h : ∀ t ∈ ts, t.isSeparator = false) :
    pieces ts = [⟨ts, none⟩] := by
  induction ts with
  | nil => exact absurd rfl hne
  | cons t ts ih =>
    simp only [List.forall_mem_cons] at h
    rw [pieces, if_neg (by simp [h.1])]
    cases ts with
    | nil => rfl
    | cons u us => rw [ih (List.cons_ne_nil u us) h.2]

/-! ## One piece -/

variable (registry : Registry) (policy : ErrorPolicy)

theorem next?_piece {pre post : List Token} {sep : Token} (hpre : ∀ t ∈ pre, t.isSeparator = false)
    (hsep : sep.isSeparator = true) :
    Segment.next? (pre ++ sep :: post) = some ⟨pre, segmentStop pre (some sep), post⟩ := by
  have htake : (pre ++ sep :: post).takeWhile (fun t => !t.isSeparator) = pre := by
    rw [List.takeWhile_append_of_pos (by simpa using hpre)]
    simp [hsep]
  have hdrop : (pre ++ sep :: post).dropWhile (fun t => !t.isSeparator) = sep :: post := by
    rw [List.dropWhile_append_of_pos (by simpa using hpre)]
    simp [hsep]
  cases hts : pre ++ sep :: post with
  | nil => simp at hts
  | cons t ts => rw [Segment.next?, ← hts, htake, hdrop]; rfl

theorem next?_last {ts : List Token} (hne : ts ≠ []) (h : ∀ t ∈ ts, t.isSeparator = false) :
    Segment.next? ts = some ⟨ts, segmentStop ts none, []⟩ := by
  have htake : ts.takeWhile (fun t => !t.isSeparator) = ts := List.takeWhile_eq_self_iff.2 (by simpa using h)
  have hdrop : ts.dropWhile (fun t => !t.isSeparator) = [] := List.dropWhile_eq_nil_iff.2 (by simpa using h)
  cases ts with
  | nil => exact absurd rfl hne
  | cons t ts => rw [Segment.next?, htake, hdrop]; rfl

/-- The step on a first piece that is known, with what is left. -/
theorem step?_first {r : Run} (h : r.finished = false) {g : Segment} {p : Piece} {ps : List Piece}
    (hnext : Segment.next? r.tokens = some g) (hpieces : pieces r.tokens = p :: ps) :
    r.step? registry policy = some (stepOf r (judge registry r.table r.nextId p),
      runAfter policy r g.rest (judge registry r.table r.nextId p)) := by
  rcases step?_eq registry policy h with ⟨hnone, -⟩ | ⟨g', p', hg, hp, hs⟩
  · rw [hpieces] at hnone; cases hnone
  · rw [hnext] at hg
    rw [hpieces] at hp
    cases hg
    cases hp
    exact hs

/-- The step on a piece that ends in a separator. -/
theorem step?_piece {r : Run} (h : r.finished = false) {pre post : List Token} {sep : Token}
    (hpre : ∀ t ∈ pre, t.isSeparator = false) (hsep : sep.isSeparator = true) (htokens : r.tokens = pre ++ sep :: post) :
    r.step? registry policy = some (stepOf r (judge registry r.table r.nextId ⟨pre, some sep⟩),
      runAfter policy r post (judge registry r.table r.nextId ⟨pre, some sep⟩)) :=
  step?_first registry policy h (by rw [htokens]; exact next?_piece hpre hsep)
    (by rw [htokens]; exact pieces_piece hpre hsep)

/-- The step on a last piece. -/
theorem step?_last {r : Run} (h : r.finished = false) (hne : r.tokens ≠ [])
    (htokens : ∀ t ∈ r.tokens, t.isSeparator = false) :
    r.step? registry policy = some (stepOf r (judge registry r.table r.nextId ⟨r.tokens, none⟩),
      runAfter policy r [] (judge registry r.table r.nextId ⟨r.tokens, none⟩)) :=
  step?_first registry policy h (next?_last hne htokens) (pieces_last hne htokens)

theorem step?_nil {r : Run} (h : r.tokens = []) : r.step? registry policy = none := by
  rw [Run.step?, h]
  split <;> rfl

/-! ## All steps -/

theorem next?_shorter {ts : List Token} {g : Segment} (h : Segment.next? ts = some g) :
    g.rest.length < ts.length := by
  cases ts with
  | nil => cases h
  | cons t ts =>
    cases h
    have hdrop := (List.dropWhile_sublist (fun t => !Token.isSeparator t) (l := t :: ts)).length_le
    simp only [List.length_drop, List.length_cons] at hdrop ⊢
    omega

/-- A step uses up a token. -/
theorem step?_shorter {r r' : Run} {s : Step} (h : r.step? registry policy = some (s, r')) :
    r'.tokens.length < r.tokens.length := by
  cases hfin : r.finished with
  | true => rw [step?_of_finished registry policy hfin] at h; cases h
  | false =>
    rcases step?_eq registry policy hfin with ⟨-, hnone⟩ | ⟨g, p, hg, -, hs⟩
    · rw [hnone] at h; cases h
    · rw [hs] at h
      cases h
      exact next?_shorter hg

/-- More requests than tokens give no more steps. -/
theorem take_of_lt (n m : Nat) {r : Run} (hn : r.tokens.length < n) (hm : r.tokens.length < m) :
    r.take registry policy n = r.take registry policy m := by
  induction n generalizing m r with
  | zero => omega
  | succ n ih =>
    cases m with
    | zero => omega
    | succ m =>
      cases hs : r.step? registry policy with
      | none => rw [take_succ_none registry policy n hs, take_succ_none registry policy m hs]
      | some p =>
        have hshorter := step?_shorter registry policy hs
        rw [take_succ_some registry policy n hs, take_succ_some registry policy m hs,
          ih m (by omega) (by omega)]

theorem toEnd_none {r : Run} (h : r.step? registry policy = none) :
    r.toEnd registry policy = ([], { r with finished := true }, true) :=
  take_succ_none registry policy _ h

theorem toEnd_some {r r' : Run} {s : Step} (h : r.step? registry policy = some (s, r')) :
    r.toEnd registry policy =
      (s :: (r'.toEnd registry policy).1, (r'.toEnd registry policy).2.1, (r'.toEnd registry policy).2.2) := by
  have hshorter := step?_shorter registry policy h
  rw [Run.toEnd, take_succ_some registry policy _ h, Run.toEnd,
    take_of_lt registry policy r.tokens.length (r'.tokens.length + 1) hshorter (Nat.lt_succ_self _)]

/-- no statement stops the run: each can be read, and under `halt` none fails -/
def Passes (steps : List Step) : Prop := ∀ s ∈ steps, ends policy s.verdict = false

/-- the run with more tokens after its own -/
def followedBy (r : Run) (ts : List Token) : Run := { r with tokens := r.tokens ++ ts }

/-- **A run goes on after closed tokens** as a run of its own over what follows. -/
theorem toEnd_followedBy {us : List Token} (hclosed : Closed us) (vs : List Token) {r : Run} (htokens : r.tokens = us)
    (h : r.finished = false) (hpass : Passes policy (r.toEnd registry policy).1) :
    let first := r.toEnd registry policy
    let next : Run := ⟨vs, r.statements + first.1.length, first.2.1.table, first.2.1.nextId, false⟩
    ((followedBy r vs).toEnd registry policy).1 = first.1 ++ (next.toEnd registry policy).1 ∧
      ((followedBy r vs).toEnd registry policy).2.1 = (next.toEnd registry policy).2.1 := by
  induction hclosed generalizing r with
  | nil =>
    have hnone := toEnd_none registry policy (step?_nil registry policy htokens)
    have hsame : followedBy r vs = ⟨vs, r.statements, r.table, r.nextId, false⟩ := by
      rw [followedBy, htokens, ← h]
      rfl
    rw [hnone, hsame]
    exact ⟨rfl, rfl⟩
  | @piece pre post sep hpre hsep _ ih =>
    have hstep := step?_piece registry policy h hpre hsep htokens
    have hstep' : (followedBy r vs).step? registry policy = _ :=
      step?_piece registry policy (r := followedBy r vs) h hpre hsep
        (by rw [followedBy, htokens, List.append_assoc, List.cons_append])
    have hfirst := toEnd_some registry policy hstep
    rw [hfirst] at hpass
    simp only [Passes, List.forall_mem_cons] at hpass
    set j := judge registry r.table r.nextId ⟨pre, some sep⟩
    obtain ⟨hsteps, hlast⟩ := ih (r := runAfter policy r post j) rfl hpass.1 hpass.2
    have hcount : (runAfter policy r post j).statements + ((runAfter policy r post j).toEnd registry policy).1.length =
        r.statements + (stepOf r j :: ((runAfter policy r post j).toEnd registry policy).1).length := by
      simp only [runAfter, List.length_cons]
      omega
    rw [hcount] at hsteps hlast
    rw [toEnd_some registry policy hstep', hfirst]
    exact ⟨congrArg (stepOf r j :: ·) hsteps, hlast⟩

/-! ## A line feed at the end -/

/-- whether the statement gives anything to show -/
def isVisible (s : Step) : Bool :=
  match s.verdict with
  | .evaluated _ (.ok .unit) => false
  | _ => true

/-- the steps that give something to show -/
def visible (steps : List Step) : List Step := steps.filter isVisible

theorem visible_cons (s : Step) {steps steps' : List Step} (h : visible steps = visible steps') :
    visible (s :: steps) = visible (s :: steps') := by
  unfold visible at h ⊢
  rw [List.filter_cons, List.filter_cons, h]

theorem toEnd_nil {r : Run} (h : r.tokens = []) : r.toEnd registry policy = ([], { r with finished := true }, true) :=
  toEnd_none registry policy (step?_nil registry policy h)

theorem toEnd_of_finished {r : Run} (h : r.finished = true) :
    (r.toEnd registry policy).1 = [] ∧ (r.toEnd registry policy).2.1 = r :=
  take_of_finished registry policy _ h

/-- What separates a statement from the next does not matter to it. -/
theorem judge_separator {ts : List Token} (hne : ts ≠ []) (sep : Token) (table : Bindings Value) (id : Nat) :
    judge registry table id ⟨ts, some sep⟩ = judge registry table id ⟨ts, none⟩ := by
  have hstop : Piece.stop ⟨ts, some sep⟩ = Piece.stop ⟨ts, none⟩ := by
    unfold Piece.stop segmentStop
    cases hlast : ts.getLast? with
    | none => exact absurd (List.getLast?_eq_none_iff.1 hlast) hne
    | some t => rfl
  unfold judge
  rw [hstop]

/-- **A line feed at the end shows nothing** and changes no binding: it ends the last statement, or makes an empty one. -/
theorem toEnd_newline (pos : Nat) {r : Run} (h : r.finished = false) :
    visible ((followedBy r [newlineAt pos]).toEnd registry policy).1 = visible (r.toEnd registry policy).1 ∧
      ((followedBy r [newlineAt pos]).toEnd registry policy).2.1.table = (r.toEnd registry policy).2.1.table ∧
      ((followedBy r [newlineAt pos]).toEnd registry policy).2.1.nextId = (r.toEnd registry policy).2.1.nextId := by
  have hnewline : (newlineAt pos).isSeparator = true := rfl
  rcases first_separator r.tokens with hlast | ⟨pre, sep, post, htokens, hpre, hsep⟩
  · have hstep' := step?_piece registry policy (r := followedBy r [newlineAt pos]) h hlast hnewline
      (show r.tokens ++ [newlineAt pos] = r.tokens ++ newlineAt pos :: [] from rfl)
    rw [toEnd_some registry policy hstep', toEnd_nil registry policy rfl]
    by_cases hnil : r.tokens = []
    · rw [toEnd_nil registry policy hnil, hnil]
      exact ⟨rfl, rfl, rfl⟩
    · have hstep := step?_last registry policy h hnil hlast
      rw [toEnd_some registry policy hstep, toEnd_nil registry policy rfl, judge_separator registry hnil]
      exact ⟨rfl, rfl, rfl⟩
  · have hwhole : r.tokens ++ [newlineAt pos] = pre ++ sep :: (post ++ [newlineAt pos]) := by
      rw [htokens, List.append_assoc, List.cons_append]
    have hstep := step?_piece registry policy h hpre hsep htokens
    have hstep' := step?_piece registry policy (r := followedBy r [newlineAt pos]) h hpre hsep hwhole
    rw [toEnd_some registry policy hstep, toEnd_some registry policy hstep']
    set j := judge registry r.table r.nextId ⟨pre, some sep⟩
    cases hends : ends policy j.verdict with
    | true =>
      obtain ⟨hsteps, hlast⟩ := toEnd_of_finished registry policy (r := runAfter policy r post j) hends
      obtain ⟨hsteps', hlast'⟩ := toEnd_of_finished registry policy
        (r := runAfter policy (followedBy r [newlineAt pos]) (post ++ [newlineAt pos]) j) hends
      refine ⟨visible_cons _ (congrArg visible (hsteps'.trans hsteps.symm)), ?_, ?_⟩
      · exact (congrArg Run.table hlast').trans (congrArg Run.table hlast).symm
      · exact (congrArg Run.nextId hlast').trans (congrArg Run.nextId hlast).symm
    | false =>
      have hshorter : post.length < r.tokens.length := by
        rw [htokens, List.length_append, List.length_cons]
        omega
      obtain ⟨hsteps, htable, hid⟩ := toEnd_newline pos (r := runAfter policy r post j) hends
      exact ⟨visible_cons _ hsteps, htable, hid⟩
termination_by r.tokens.length

/-! ## Texts -/

/-- every name counts, and identities are equal -/
def byEveryName : Likeness where
  counts _ _ := True
  outer _ _ _ := True
  ids id id' := id = id'
  var := trivial
  unary _ := trivial
  left _ := trivial
  right _ := trivial
  callee _ := trivial
  argument _ _ := trivial
  lambda _ := trivial
  body _ _ := trivial
  ids_refl _ := rfl
  ids_succ h := congrArg (· + 1) h

/-- the tables bind the same names, to values that differ at most in the offsets of function bodies -/
def BindingsAlike (t t' : Bindings Value) : Prop := ∀ x, Option.Rel (Alike byEveryName) (t.get? x) (t'.get? x)

theorem BindingsAlike.refl (t : Bindings Value) : BindingsAlike t t := by
  intro x
  cases t.get? x with
  | none => exact .none
  | some v => exact .some (alike_refl v)

theorem BindingsAlike.tablesAlike {t t' : Bindings Value} (h : BindingsAlike t t') (names : String → Prop) :
    TablesAlike byEveryName names t registry t' registry := by
  intro x _
  have hx := h x
  unfold meaning
  generalize t.get? x = a, t'.get? x = a' at hx ⊢
  cases hx with
  | some hv => exact .bound hv
  | none =>
    cases registry.function? x with
    | none => exact .constant _
    | some f => exact .native _ (alike_refl (.function f))

/-- **The same tokens further on**, against a table that is alike. -/
theorem toEnd_moved (k m : Nat) (ts : List Token) {t t' : Bindings Value} (h : BindingsAlike t t') (id : Nat) :
    let own := (Run.start ts t id).toEnd registry policy
    let moved := (Run.mk (ts.map (Token.shift k)) m t' id false).toEnd registry policy
    List.Forall₂ (StepsAlike byEveryName k m) own.1 moved.1 ∧ BindingsAlike own.2.1.table moved.2.1.table ∧
      own.2.1.nextId = moved.2.1.nextId := by
  have hruns : RunsAlike byEveryName k m (fun _ => True) registry registry (.start ts t id)
      ⟨ts.map (Token.shift k), m, t', id, false⟩ :=
    ⟨rfl, (Nat.zero_add m).symm, h.tablesAlike registry _, rfl, rfl, fun _ _ _ _ _ _ _ => trivial⟩
  obtain ⟨hsteps, hlast⟩ := toEnd_alike policy hruns
  exact ⟨hsteps, fun x => binding_alike (hlast.tables x trivial), hlast.ids⟩

/-- **A run goes on against an alike table.** The steps over closed tokens that stop nothing are followed by those over
what comes next, whose steps on their own are alike. -/
theorem toEnd_extended (k : Nat) {ts : List Token} (hclosed : Closed ts) (tl : List Token) (table : Bindings Value)
    (id : Nat) {t₁ : Bindings Value} (hpass : Passes policy ((Run.start ts table id).toEnd registry policy).1)
    (h : BindingsAlike t₁ ((Run.start ts table id).toEnd registry policy).2.1.table) :
    let first := (Run.start ts table id).toEnd registry policy
    let own := (Run.start tl t₁ first.2.1.nextId).toEnd registry policy
    let whole := (Run.start (ts ++ tl.map (Token.shift k)) table id).toEnd registry policy
    ∃ steps, whole.1 = first.1 ++ steps ∧ List.Forall₂ (StepsAlike byEveryName k first.1.length) own.1 steps ∧
      BindingsAlike own.2.1.table whole.2.1.table ∧ own.2.1.nextId = whole.2.1.nextId := by
  intro first own whole
  obtain ⟨hsteps, hlast⟩ := toEnd_followedBy registry policy hclosed (tl.map (Token.shift k)) (r := .start ts table id) rfl
    rfl hpass
  obtain ⟨hmoved, htable, hid⟩ := toEnd_moved registry policy k first.1.length tl h first.2.1.nextId
  have hcount : (Run.start ts table id).statements + first.1.length = first.1.length := Nat.zero_add _
  rw [hcount] at hsteps hlast
  refine ⟨_, hsteps, hmoved, ?_, ?_⟩
  · exact (congrArg Run.table hlast).symm ▸ htable
  · exact hid.trans (congrArg Run.nextId hlast).symm

theorem run_eq (e : Engine) (table : Bindings Value) {source : String} {ts : List Token}
    (h : Token.tokenize source = .ok ts) :
    e.run source table = .ok (((Run.start ts table e.nextId).toEnd e.registry e.config.errorPolicy).1,
      ((Run.start ts table e.nextId).toEnd e.registry e.config.errorPolicy).2.1.table,
      e.after ((Run.start ts table e.nextId).toEnd e.registry e.config.errorPolicy).2.1) := by
  rw [Engine.run, Engine.evaluate, h]
  rfl

/-- The tokens of a text and a line feed, and of more after it. -/
theorem tokenize_break {a b : String} {ta tb : List Token} (ha : Token.tokenize a = .ok ta)
    (hb : Token.tokenize b = .ok tb) (hcr : a.toList.getLast? ≠ some '\r') :
    Token.tokenize (a ++ "\n" ++ b) =
      .ok (ta ++ [newlineAt (byteLength a.toList)] ++ tb.map (Token.shift (byteLength a.toList + 1))) := by
  have happend : (a ++ "\n" ++ b).toList = a.toList ++ '\n' :: b.toList := by simp
  change Token.ofChars b.toList = .ok tb at hb
  rw [Token.tokenize, happend, ofChars_break hcr ha, hb, List.append_assoc, List.singleton_append]
  rfl

theorem tokenize_newline {a : String} {ta : List Token} (ha : Token.tokenize a = .ok ta)
    (hcr : a.toList.getLast? ≠ some '\r') :
    Token.tokenize (a ++ "\n") = .ok (ta ++ [newlineAt (byteLength a.toList)]) := by
  have hempty : Token.tokenize "" = .ok [] := by
    have hblank : splitBlank [] = ([], []) := by rw [splitBlank]; rfl
    show Token.ofLexemes false (Lexeme.split 0 []) = .ok []
    rw [Lexeme.split, hblank]
    rfl
  have hbreak := tokenize_break ha hempty hcr
  rwa [String.append_empty, List.map_nil, List.append_nil] at hbreak

/-- **A text, a line feed and another text.** If no statement of the first stops the run, the whole has its steps and
then those of the second, further on and with greater numbers. -/
theorem run_two (e : Engine) (table : Bindings Value) {a b : String} {ta tb : List Token}
    (ha : Token.tokenize a = .ok ta) (hb : Token.tokenize b = .ok tb) (hcr : a.toList.getLast? ≠ some '\r') :
    ∃ steps t₁ e₁, e.run (a ++ "\n") table = .ok (steps, t₁, e₁) ∧ (Passes e.config.errorPolicy steps →
      ∃ steps₂ t₂ e₂ steps₂' t₂', e₁.run b t₁ = .ok (steps₂, t₂, e₂) ∧
        e.run (a ++ "\n" ++ b) table = .ok (steps ++ steps₂', t₂', e₂) ∧
        List.Forall₂ (StepsAlike byEveryName (byteLength a.toList + 1) steps.length) steps₂ steps₂' ∧
        BindingsAlike t₂ t₂') := by
  refine ⟨_, _, _, run_eq e table (tokenize_newline ha hcr), fun hpass => ?_⟩
  have hwhole := run_eq e table (tokenize_break ha hb hcr)
  obtain ⟨steps, hsteps, hmoved, htable, hid⟩ := toEnd_extended e.registry e.config.errorPolicy (byteLength a.toList + 1)
    (closed_concat ta rfl) tb table e.nextId hpass (.refl _)
  refine ⟨_, _, _, steps, _, run_eq _ _ hb, ?_, hmoved, htable⟩
  rw [hwhole]
  simp only [Except.ok.injEq, Prod.mk.injEq]
  exact ⟨hsteps, trivial, congrArg (fun id => { e with nextId := id }) hid.symm⟩

/-! ## Lines -/

/-- the steps of lines that are run one after the other, with the table and the engine after them -/
def enter (e : Engine) (table : Bindings Value) : List String → Except LexError (List Step × Bindings Value × Engine)
  | [] => .ok ([], table, e)
  | line :: lines =>
    match e.run line table with
    | .error err => .error err
    | .ok (steps, table', e') => (enter e' table' lines).map fun r => (steps ++ r.1, r.2)

/-- the lines as one text -/
def script (lines : List String) : String := String.join (lines.map (· ++ "\n"))

/-- two steps of one statement, whatever their numbers and offsets are -/
def VisiblyAlike (s s' : Step) : Prop := ∃ k m, StepsAlike byEveryName k m s s'

variable {policy}

theorem isVisible_alike {s s' : Step} (h : VisiblyAlike s s') : isVisible s = isVisible s' := by
  obtain ⟨k, m, -, hverdict⟩ := h
  unfold isVisible
  generalize s.verdict = v, s'.verdict = v' at hverdict ⊢
  cases hverdict with
  | unreadable e => rfl
  | evaluated span h =>
    cases h with
    | error he => rfl
    | ok hv => cases hv <;> rfl

theorem visible_alike {steps steps' : List Step} (h : List.Forall₂ VisiblyAlike steps steps') :
    List.Forall₂ VisiblyAlike (visible steps) (visible steps') := by
  induction h with
  | nil => exact .nil
  | @cons s s' steps steps' hs hrest ih =>
    unfold visible at ih ⊢
    rw [List.filter_cons, List.filter_cons, isVisible_alike hs]
    split
    · exact .cons hs ih
    · exact ih

theorem visible_append (steps steps' : List Step) : visible (steps ++ steps') = visible steps ++ visible steps' :=
  List.filter_append ..

theorem ends_alike {s s' : Step} (h : VisiblyAlike s s') : ends policy s.verdict = ends policy s'.verdict := by
  obtain ⟨k, m, -, hverdict⟩ := h
  generalize s.verdict = v, s'.verdict = v' at hverdict ⊢
  cases hverdict with
  | unreadable e => rfl
  | evaluated span h => cases h <;> rfl

theorem passes_alike {steps steps' : List Step} (h : List.Forall₂ VisiblyAlike steps steps') (hpass : Passes policy steps) :
    Passes policy steps' := by
  induction h with
  | nil => exact hpass
  | cons hs _ ih =>
    simp only [Passes, List.forall_mem_cons] at hpass ih ⊢
    exact ⟨ends_alike hs ▸ hpass.1, ih hpass.2⟩

/-- A step that shows nothing stops no run. -/
theorem passes_visible {steps : List Step} : Passes policy (visible steps) ↔ Passes policy steps := by
  constructor
  · intro h s hs
    by_cases hvisible : isVisible s = true
    · exact h s (List.mem_filter.2 ⟨hs, hvisible⟩)
    · unfold isVisible at hvisible
      split at hvisible
      · next hverdict => rw [hverdict]; rfl
      · exact absurd rfl hvisible
  · exact fun h s hs => h s (List.mem_of_mem_filter hs)

theorem passes_append {steps steps' : List Step} :
    Passes policy (steps ++ steps') ↔ Passes policy steps ∧ Passes policy steps' :=
  List.forall_mem_append

/-- the tokens of lines as one text, with those of one more line after them -/
structure Joined (lines : List String) (ts : List Token) : Prop where
  closed : Closed ts
  ending : (script lines).toList.getLast? ≠ some '\r'
  tokens : ∀ last tl, Token.tokenize last = .ok tl → Token.tokenize (script lines ++ last) =
    .ok (ts ++ tl.map (Token.shift (byteLength (script lines).toList)))

theorem joined_nil : Joined [] [] := by
  have hempty : script [] = "" := rfl
  refine ⟨.nil, by simp [hempty], fun last tl h => ?_⟩
  rw [hempty, String.empty_append, List.nil_append, h]
  exact congrArg Except.ok (Token.map_shift_zero tl).symm

theorem script_concat (lines : List String) (line : String) : script (lines ++ [line]) = script lines ++ line ++ "\n" := by
  simp [script, String.join, String.append_assoc]

theorem joined_concat {lines : List String} {ts tl : List Token} {line : String} (h : Joined lines ts)
    (hline : Token.tokenize line = .ok tl) (hcr : line.toList.getLast? ≠ some '\r') :
    Joined (lines ++ [line]) (ts ++ tl.map (Token.shift (byteLength (script lines).toList)) ++
      [newlineAt (byteLength (script lines ++ line).toList)]) := by
  have hending : (script lines ++ line).toList.getLast? ≠ some '\r' := by
    have hlines := h.ending
    rw [String.toList_append, List.getLast?_append]
    cases hlast : line.toList.getLast? with
    | none => simpa using hlines
    | some c => simpa [hlast] using hcr
  have hlength : byteLength (script (lines ++ [line])).toList = byteLength (script lines ++ line).toList + 1 := by
    rw [script_concat, String.toList_append, byteLength_append]
    rfl
  refine ⟨closed_concat _ rfl, ?_, fun last tl' hlast => ?_⟩
  · rw [script_concat]
    simp
  · rw [script_concat, ← script_concat, hlength, script_concat]
    exact tokenize_break (h.tokens line tl hline) hlast hending

/-- all steps of tokens that an engine runs against a table, and the run after them -/
def allSteps (e : Engine) (ts : List Token) (table : Bindings Value) : List Step × Run × Bool :=
  (Run.start ts table e.nextId).toEnd e.registry e.config.errorPolicy

/-- what running lines one after the other gave, beside a run over all their tokens -/
structure Entered (e : Engine) (table : Bindings Value) (ts : List Token) (steps : List Step) (t₁ : Bindings Value)
    (e₁ : Engine) : Prop where
  shown : List.Forall₂ VisiblyAlike (visible steps) (visible (allSteps e ts table).1)
  bindings : BindingsAlike t₁ (allSteps e ts table).2.1.table
  engine : e₁ = e.after (allSteps e ts table).2.1

theorem Entered.passes {e e₁ : Engine} {table t₁ : Bindings Value} {ts : List Token} {steps : List Step}
    (h : Entered e table ts steps t₁ e₁) (hpass : Passes policy steps) : Passes policy (allSteps e ts table).1 :=
  passes_visible.1 (passes_alike h.shown (passes_visible.2 hpass))

/-- One more line, entered and as part of the whole. -/
theorem Entered.more {e e₁ : Engine} {table t₁ : Bindings Value} {ts : List Token} {steps : List Step}
    (h : Entered e table ts steps t₁ e₁) (hclosed : Closed ts) (hpass : Passes e.config.errorPolicy steps) (k : Nat)
    {line : String} {tl : List Token} (hline : Token.tokenize line = .ok tl) :
    ∃ steps₂ t₂ e₂, e₁.run line t₁ = .ok (steps₂, t₂, e₂) ∧
      Entered e table (ts ++ tl.map (Token.shift k)) (steps ++ steps₂) t₂ e₂ := by
  have hpassed := h.passes hpass
  obtain ⟨hshown, hbindings, rfl⟩ := h
  obtain ⟨more, hwhole, hmoved, htable, hid⟩ := toEnd_extended e.registry e.config.errorPolicy k hclosed tl table e.nextId
    hpassed hbindings
  have hmore : List.Forall₂ VisiblyAlike _ more := hmoved.imp fun _ _ hs => ⟨_, _, hs⟩
  have hwhole' : (allSteps e (ts ++ tl.map (Token.shift k)) table).1 = (allSteps e ts table).1 ++ more := hwhole
  refine ⟨_, _, _, run_eq _ _ hline, ?_, htable, congrArg (fun id => { e with nextId := id }) hid⟩
  rw [hwhole', visible_append, visible_append]
  exact List.rel_append hshown (visible_alike hmore)

/-- A line feed after what was entered. -/
theorem Entered.newline {e e₁ : Engine} {table t₁ : Bindings Value} {ts : List Token} {steps : List Step}
    (h : Entered e table ts steps t₁ e₁) (pos : Nat) : Entered e table (ts ++ [newlineAt pos]) steps t₁ e₁ := by
  obtain ⟨hvisible, htable, hid⟩ := toEnd_newline e.registry e.config.errorPolicy pos (r := .start ts table e.nextId) rfl
  obtain ⟨hshown, hbindings, rfl⟩ := h
  refine ⟨?_, ?_, ?_⟩
  · exact Eq.mpr (congrArg (List.Forall₂ VisiblyAlike _) hvisible) hshown
  · exact Eq.mpr (congrArg (BindingsAlike _) htable) hbindings
  · exact congrArg (fun id => { e with nextId := id }) hid.symm

theorem enter_concat (e : Engine) (table : Bindings Value) (lines : List String) (line : String) {steps : List Step}
    {t₁ : Bindings Value} {e₁ : Engine} (h : enter e table lines = .ok (steps, t₁, e₁)) {steps₂ : List Step}
    {t₂ : Bindings Value} {e₂ : Engine} (h₂ : e₁.run line t₁ = .ok (steps₂, t₂, e₂)) :
    enter e table (lines ++ [line]) = .ok (steps ++ steps₂, t₂, e₂) := by
  induction lines generalizing e table steps with
  | nil =>
    cases h
    simp only [List.nil_append, enter, h₂]
    simp [Except.map]
  | cons l ls ih =>
    simp only [List.cons_append, enter] at h ⊢
    cases hl : e.run l table with
    | error err => rw [hl] at h; cases h
    | ok r =>
      rw [hl] at h
      obtain ⟨⟨more, t', e'⟩, hr', hr⟩ := map_eq_ok h
      cases hr
      simp only [ih _ _ hr']
      rw [List.append_assoc]
      rfl

/-- the text has tokens and does not end in a carriage return -/
def IsLine (line : String) : Prop := (∃ ts, Token.tokenize line = .ok ts) ∧ line.toList.getLast? ≠ some '\r'

/-- **Lines, one after the other and as one text.** -/
theorem enter_alike (e : Engine) (table : Bindings Value) (lines : List String) (h : ∀ line ∈ lines, IsLine line) :
    ∃ ts steps t₁ e₁, Joined lines ts ∧ enter e table lines = .ok (steps, t₁, e₁) ∧
      (Passes e.config.errorPolicy steps → Entered e table ts steps t₁ e₁) := by
  induction lines using List.reverseRecOn with
  | nil =>
    refine ⟨[], [], table, e, joined_nil, rfl, fun _ => ?_⟩
    have hnone := toEnd_nil e.registry e.config.errorPolicy (r := .start [] table e.nextId) rfl
    refine ⟨?_, ?_, ?_⟩ <;> rw [allSteps, hnone]
    · exact .nil
    · exact .refl table
    · rfl
  | append_singleton lines line ih =>
    simp only [List.forall_mem_append, List.forall_mem_singleton] at h
    obtain ⟨hlines, ⟨tl, htl⟩, hcr⟩ := h
    obtain ⟨ts, steps, t₁, e₁, hjoined, henter, hentered⟩ := ih hlines
    have hrun := run_eq e₁ t₁ htl
    refine ⟨_, _, _, _, joined_concat hjoined htl hcr, enter_concat e table lines line henter hrun, fun hpass => ?_⟩
    rw [passes_append] at hpass
    obtain ⟨steps₂, t₂, e₂, hrun₂, hmore⟩ := (hentered hpass.1).more hjoined.closed hpass.1
      (byteLength (script lines).toList) htl
    rw [hrun] at hrun₂
    cases hrun₂
    exact hmore.newline _

/-! ## Main result -/

/-- **Entering line by line and running as one agree.** If no statement of a text `a` and a line feed stops the run, then
running `a`, a line feed and `b` gives the steps of the first and then those of `b` on its own from the table that the
first left, with their numbers greater by the number of statements before and their spans further on by the bytes before;
the table is the same but for the offsets in function bodies. So lines that are entered one after the other show what
their text shows as a whole, up to numbers and spans, and leave the same table. -/
theorem line_by_line (e : Engine) (table : Bindings Value) :
    (∀ a b : String, IsLine a → (∃ tb, Token.tokenize b = .ok tb) →
      ∃ steps t₁ e₁, e.run (a ++ "\n") table = .ok (steps, t₁, e₁) ∧ (Passes e.config.errorPolicy steps →
        ∃ steps₂ t₂ e₂ steps₂' t₂', e₁.run b t₁ = .ok (steps₂, t₂, e₂) ∧
          e.run (a ++ "\n" ++ b) table = .ok (steps ++ steps₂', t₂', e₂) ∧
          List.Forall₂ (StepsAlike byEveryName (byteLength a.toList + 1) steps.length) steps₂ steps₂' ∧
          BindingsAlike t₂ t₂')) ∧
    (∀ (lines : List String) (last : String), (∀ line ∈ lines, IsLine line) → (∃ tl, Token.tokenize last = .ok tl) →
      ∃ steps t₁ e₁, enter e table lines = .ok (steps, t₁, e₁) ∧ (Passes e.config.errorPolicy steps →
        ∃ steps₂ t₂ e₂ steps' t₂', enter e table (lines ++ [last]) = .ok (steps ++ steps₂, t₂, e₂) ∧
          e.run (script lines ++ last) table = .ok (steps', t₂', e₂) ∧
          List.Forall₂ VisiblyAlike (visible (steps ++ steps₂)) (visible steps') ∧ BindingsAlike t₂ t₂')) := by
  refine ⟨?_, ?_⟩
  · rintro a b ⟨⟨ta, ha⟩, hcr⟩ ⟨tb, hb⟩
    exact run_two e table ha hb hcr
  · rintro lines last hlines ⟨tl, hlast⟩
    obtain ⟨ts, steps, t₁, e₁, hjoined, henter, hentered⟩ := enter_alike e table lines hlines
    refine ⟨steps, t₁, e₁, henter, fun hpass => ?_⟩
    obtain ⟨steps₂, t₂, e₂, hrun, hmore⟩ := (hentered hpass).more hjoined.closed hpass
      (byteLength (script lines).toList) hlast
    have hwhole := run_eq e table (hjoined.tokens last tl hlast)
    refine ⟨steps₂, t₂, e₂, _, _, enter_concat e table lines last henter hrun, ?_, hmore.shown, hmore.bindings⟩
    rw [hmore.engine]
    exact hwhole

/-! ## Witness: a definition and a call -/

/-- an engine with nothing registered -/
def bareEngine : Engine := ⟨.standard, [], .empty, .empty, [], .empty, 0⟩

/-- a definition -/
def firstLine : String := "f(x) = x + 1"

/-- a call of the function of the first line -/
def secondLine : String := "f(2)"

theorem firstLine_isLine : IsLine firstLine := ⟨Readers.exists_of_isOk (by decide +kernel), by decide +kernel⟩

/-- whether the first line is run and stops nothing -/
def firstPasses : Bool :=
  match bareEngine.run (firstLine ++ "\n") .empty with
  | .ok (steps, _) => steps.all fun s => !ends bareEngine.config.errorPolicy s.verdict
  | .error _ => false

/-- The call finds the function of the line before, entered on its own or as part of one text. -/
theorem twoLines_agree :
    IsLine firstLine ∧ ∃ steps t₁ e₁ steps₂ t₂ e₂ steps₂' t₂',
      bareEngine.run (firstLine ++ "\n") .empty = .ok (steps, t₁, e₁) ∧ Passes bareEngine.config.errorPolicy steps ∧
        e₁.run secondLine t₁ = .ok (steps₂, t₂, e₂) ∧
        bareEngine.run (firstLine ++ "\n" ++ secondLine) .empty = .ok (steps ++ steps₂', t₂', e₂) ∧
        List.Forall₂ (StepsAlike byEveryName (byteLength firstLine.toList + 1) steps.length) steps₂ steps₂' ∧
        BindingsAlike t₂ t₂' := by
  have hsecond : ∃ ts, Token.tokenize secondLine = .ok ts := Readers.exists_of_isOk (by decide +kernel)
  obtain ⟨steps, t₁, e₁, hrun, htwo⟩ := (line_by_line bareEngine .empty).1 firstLine secondLine firstLine_isLine hsecond
  have hpass : Passes bareEngine.config.errorPolicy steps := by
    have hfirst : firstPasses = true := by decide +kernel
    unfold firstPasses at hfirst
    rw [hrun] at hfirst
    simpa [Passes] using hfirst
  obtain ⟨steps₂, t₂, e₂, steps₂', t₂', hrun₂, hwhole, hsteps, hbindings⟩ := htwo hpass
  exact ⟨firstLine_isLine, steps, t₁, e₁, steps₂, t₂, e₂, steps₂', t₂', hrun, hpass, hrun₂, hwhole, hsteps, hbindings⟩

end CurveScript.LineByLine
