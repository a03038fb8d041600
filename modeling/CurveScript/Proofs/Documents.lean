/-
The tokens that a document keeps.

A document is used by requests in any order: its text is edited, its tokens are asked for, it is run with an engine
against a table. What it keeps is the tokenised text of the moment (`Fresh`), so every request is answered from the
current text. `readings` numbers the token sequences that were made; the reading that the next request gets (`due`) is a
new one exactly if an edit changed the text since the last.

Results:
- `act_cases`: what one request does; `Fresh.act`, `source_act`, `due_le_act` from it.
- `Fresh.actAll`, `source_actAll`, `due_actAll`: all of a sequence.
- `tokens_never_stale`: the theorem.
-/
import CurveScript.Engine
import Mathlib.Logic.Basic

namespace CurveScript.Documents

open CurveScript

/-! ## Requests -/

/-- a request to a document -/
inductive Request where
  | edit (text : String)
  | ask
  | run (engine : Engine) (table : Bindings Value)

/-- the document after a request -/
def act (d : Document) : Request → Document
  | .edit text => (d.setSource text).2
  | .ask => d.tokens.2
  | .run e table => (e.evaluateDocument d table).2

/-- the document after requests in turn -/
def actAll (d : Document) (requests : List Request) : Document := requests.foldl act d

/-- the text that a request writes, if it is an edit -/
def Request.text? : Request → Option String
  | edit text => some text
  | _ => none

/-- the text after requests: that of the last edit -/
def textAfter (text : String) (requests : List Request) : String :=
  requests.foldl (fun text r => r.text?.getD text) text

/-- Some edit among the requests changes the text that it meets. -/
def Edited (text : String) (requests : List Request) : Prop :=
  ∃ before text' after, requests = before ++ .edit text' :: after ∧ text' ≠ textAfter text before

theorem edited_cons {text : String} {r : Request} {requests : List Request} :
    Edited text (r :: requests) ↔ (∃ t, r = .edit t ∧ t ≠ text) ∨ Edited (textAfter text [r]) requests := by
  constructor
  · rintro ⟨before, t, after, hsplit, ht⟩
    cases before with
    | nil =>
      cases hsplit
      exact .inl ⟨t, rfl, ht⟩
    | cons q before =>
      cases hsplit
      exact .inr ⟨before, t, after, rfl, ht⟩
  · rintro (⟨t, rfl, ht⟩ | ⟨before, t, after, rfl, ht⟩)
    · exact ⟨[], t, requests, rfl, ht⟩
    · exact ⟨r :: before, t, after, rfl, ht⟩

/-! ## The tokens that are kept -/

/-- Tokens that are kept are those of the text. -/
def Fresh (d : Document) : Prop := ∀ found, d.cached = some found → found = Token.tokenize d.source

section Tokens

variable {d : Document}

theorem fresh_ofSource (source : String) : Fresh (.ofSource source) := nofun

theorem tokens_source : d.tokens.2.source = d.source := by
  unfold Document.tokens
  split <;> rfl

theorem tokens_kept : d.tokens.2.cached.isSome := by
  unfold Document.tokens
  split
  · next h => simp [h]
  · rfl

/-- A document that keeps its tokens gives them and stays as it is. -/
theorem tokens_of_kept (h : d.cached.isSome) : d.tokens.2 = d := by
  unfold Document.tokens
  split
  · rfl
  · next hnone => simp [hnone] at h

theorem Fresh.tokens_eq (h : Fresh d) : d.tokens.1 = Token.tokenize d.source := by
  unfold Document.tokens
  split
  · next found hfound => exact h found hfound
  · rfl

theorem Fresh.tokens (h : Fresh d) : Fresh d.tokens.2 := by
  unfold Document.tokens
  split
  · exact h
  · rintro found ⟨⟩
    rfl

theorem setSource_same : d.setSource d.source = (false, d) := if_pos rfl

theorem setSource_other {text : String} (h : text ≠ d.source) :
    d.setSource text = (true, ⟨text, none, d.readings⟩) := if_neg h

end Tokens

/-! ## One request -/

section Request

variable {d : Document}

/-- What a request does: it reads the text, or leaves all as it is, or writes another text and drops the tokens. -/
theorem act_cases (d : Document) (r : Request) :
    (r.text? = none ∧ act d r = d.tokens.2) ∨ (r = .edit d.source ∧ act d r = d) ∨
      ∃ text, r = .edit text ∧ text ≠ d.source ∧ act d r = ⟨text, none, d.readings⟩ := by
  cases r with
  | edit text =>
    by_cases h : text = d.source
    · refine .inr (.inl ⟨by rw [h], ?_⟩)
      rw [act, h, setSource_same]
    · refine .inr (.inr ⟨text, rfl, h, ?_⟩)
      rw [act, setSource_other h]
  | ask => exact .inl ⟨rfl, rfl⟩
  | run e table => exact .inl ⟨rfl, rfl⟩

theorem source_act (d : Document) (r : Request) : (act d r).source = textAfter d.source [r] := by
  obtain ⟨htext, hact⟩ | ⟨rfl, hact⟩ | ⟨text, rfl, -, hact⟩ := act_cases d r <;> rw [hact]
  · rw [tokens_source, textAfter, List.foldl_cons, htext]
    rfl
  · rfl
  · rfl

theorem Fresh.act (h : Fresh d) (r : Request) : Fresh (act d r) := by
  obtain ⟨-, hact⟩ | ⟨-, hact⟩ | ⟨text, -, -, hact⟩ := act_cases d r <;> rw [hact]
  · exact h.tokens
  · exact h
  · exact nofun

end Request

/-! ## Readings -/

/-- the number of the reading that the next request for tokens gets -/
def due (d : Document) : Nat := d.tokens.2.readings

section Readings

variable {d : Document}

theorem due_dropped (text : String) (n : Nat) : due ⟨text, none, n⟩ = n + 1 := rfl

theorem due_kept (h : d.cached.isSome) : due d = d.readings := by rw [due, tokens_of_kept h]

theorem due_le (d : Document) : due d ≤ d.readings + 1 := by
  unfold due Document.tokens
  split
  · exact Nat.le_succ _
  · exact Nat.le_refl _

theorem due_tokens (d : Document) : due d.tokens.2 = due d := due_kept tokens_kept

theorem due_le_act (d : Document) (r : Request) : due d ≤ due (act d r) := by
  obtain ⟨-, hact⟩ | ⟨-, hact⟩ | ⟨text, -, -, hact⟩ := act_cases d r
  · exact Nat.le_of_eq (by rw [hact, due_tokens])
  · exact Nat.le_of_eq (by rw [hact])
  · rw [hact, due_dropped]
    exact due_le d

theorem due_le_actAll (d : Document) (requests : List Request) : due d ≤ due (actAll d requests) := by
  induction requests generalizing d with
  | nil => exact Nat.le_refl _
  | cons r requests ih => exact Nat.le_trans (due_le_act d r) (ih (act d r))

/-- **The tokens that are kept are given again** exactly if no edit changed the text. -/
theorem due_actAll (h : d.cached.isSome) (requests : List Request) :
    due (actAll d requests) = due d ↔ ¬ Edited d.source requests := by
  induction requests with
  | nil => simp [actAll, Edited]
  | cons r requests ih =>
    have hall : actAll d (r :: requests) = actAll (act d r) requests := rfl
    rw [edited_cons, not_or, hall]
    obtain ⟨htext, hact⟩ | ⟨rfl, hact⟩ | ⟨text, rfl, htext, hact⟩ := act_cases d r
    · have hsame : textAfter d.source [r] = d.source := by simp [textAfter, htext]
      rw [hact, tokens_of_kept h, ih, hsame]
      refine (and_iff_right ?_).symm
      rintro ⟨t, rfl, -⟩
      cases htext
    · rw [hact, ih]
      refine (and_iff_right ?_).symm
      rintro ⟨t, ⟨⟩, ht⟩
      exact ht rfl
    · -- the document meets the edit with its tokens, so the next reading is a new one, and later ones are no older
      have hnew : due d < due (actAll (act d (.edit text)) requests) := by
        calc due d = d.readings := due_kept h
          _ < due (act d (.edit text)) := by rw [hact, due_dropped]; exact Nat.lt_succ_self _
          _ ≤ _ := due_le_actAll _ _
      exact iff_of_false (Nat.ne_of_gt hnew) fun hnone => hnone.1 ⟨text, rfl, htext⟩

end Readings

/-! ## All requests -/

theorem source_actAll (d : Document) (requests : List Request) :
    (actAll d requests).source = textAfter d.source requests := by
  induction requests generalizing d with
  | nil => rfl
  | cons r requests ih => exact (ih (act d r)).trans (by rw [source_act]; rfl)

theorem Fresh.actAll {d : Document} (h : Fresh d) (requests : List Request) : Fresh (actAll d requests) := by
  induction requests generalizing d with
  | nil => exact h
  | cons r requests ih => exact ih (h.act r)

/-- A document that is fresh is run as its text is, by the registry and the policy of the engine. -/
theorem Fresh.evaluateDocument {d : Document} (h : Fresh d) (e : Engine) (table : Bindings Value) :
    (e.evaluateDocument d table).1 = e.evaluate d.source table := by
  have htokens : (e.evaluateDocument d table).1 =
      (d.tokens.1.map fun ts => Execution.start ts table e.registry e.nextId).map
        fun ex => ex.withPolicy e.config.errorPolicy := rfl
  rw [htokens, h.tokens_eq, Engine.evaluate]
  cases Token.tokenize d.source <;> rfl

/-- What the engine's execution of a text is: a run of its tokens by the engine's registry and policy. -/
theorem evaluate_ok {source : String} {tokens : List Token} (h : Token.tokenize source = .ok tokens) (e : Engine)
    (table : Bindings Value) :
    e.evaluate source table = .ok ⟨.start tokens table e.nextId, e.registry, e.config.errorPolicy⟩ := by
  rw [Engine.evaluate, h]
  rfl

theorem evaluate_error {source : String} {err : LexError} (h : Token.tokenize source = .error err) (e : Engine)
    (table : Bindings Value) : e.evaluate source table = .error err := by
  rw [Engine.evaluate, h]
  rfl

/-- **The tokens of a document are never stale.** After any requests, its text is that of the last edit, and:
- its tokens are those of the text, or the error of reading it; an edit says whether it changes the text; and the
  sequence that was given is given again as long as no edit changed the text;
- an engine executes the document as it executes the text: with the same registry and policy, so however many statements
  are pulled, the outputs and the table after them are those of the text's tokens under the engine's registry and
  policy, and all of them are what the engine's own run of the text gives;
- where the text cannot be read, nothing is executed, whatever the host sets, and table and engine stay as they are. -/
theorem tokens_never_stale (source : String) (requests : List Request) :
    let d := actAll (.ofSource source) requests
    d.source = textAfter source requests ∧
    d.tokens.1 = Token.tokenize d.source ∧
    (∀ text, (d.setSource text).1 = true ↔ text ≠ d.source) ∧
    (∀ between, (actAll d.tokens.2 between).tokens.2.readings = d.tokens.2.readings ↔ ¬ Edited d.source between) ∧
    (∀ (e : Engine) table, (e.evaluateDocument d table).1 = e.evaluate d.source table) ∧
    (∀ (e : Engine) table tokens, Token.tokenize d.source = .ok tokens →
      (∀ limit, let pulled := Execution.pull ⟨.start tokens table e.nextId, e.registry, e.config.errorPolicy⟩ limit
        e.collect limit table (e.evaluateDocument d table).1 = (.ok pulled, pulled.2.1.table, e.after pulled.2.1)) ∧
      ∃ steps r ended,
        e.collect none table (e.evaluateDocument d table).1 = (.ok (steps, r, ended), r.table, e.after r) ∧
        e.run d.source table = .ok (steps, r.table, e.after r)) ∧
    (∀ (e : Engine) limit table err (adjust : Execution → Execution), Token.tokenize d.source = .error err →
      e.collect limit table ((e.evaluateDocument d table).1.map adjust) = (.error err, table, e)) := by
  intro d
  have hfresh : Fresh d := (fresh_ofSource source).actAll requests
  refine ⟨source_actAll _ requests, hfresh.tokens_eq, ?_, ?_, hfresh.evaluateDocument, ?_, ?_⟩
  · intro text
    by_cases h : text = d.source
    · rw [h, setSource_same]
      simp
    · rw [setSource_other h]
      simp [h]
  · intro between
    have h := due_actAll (d := d.tokens.2) tokens_kept between
    rwa [tokens_source, due_tokens] at h
  · intro e table tokens htokens
    rw [hfresh.evaluateDocument, evaluate_ok htokens]
    refine ⟨fun limit => rfl, _, _, _, rfl, ?_⟩
    rw [Engine.run, evaluate_ok htokens]
    rfl
  · intro e limit table err adjust herr
    rw [hfresh.evaluateDocument, evaluate_error herr]
    rfl

end CurveScript.Documents
