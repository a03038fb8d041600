/-
Invariants of runs and of registries.

A run is its statements one after the other, and loading is one registration after the other. A property that one
statement keeps is therefore kept by a run of any length, and one that a registration keeps is kept by loading whatever
the roots hold. The inductions are made here once, for any property.

Results:
- `step?_keeps`, `take_keeps`: runs. What is known of the tokens is known of the leaves of every statement.
- `load_keeps_described`, `load_keeps`: the loading of plugins that list functions of a given kind only, with regard to
  how they are described or without.
-/
import CurveScript.Engine
import CurveScript.Proofs.Leaves
import CurveScript.Proofs.RunFold

namespace CurveScript.Invariants

/-! ## Runs -/

/-- The tokens of a segment and those after it are tokens of the run. -/
theorem mem_of_next? {ts : List Token} {g : Segment} (h : Segment.next? ts = some g) :
    (∀ t ∈ g.tokens, t ∈ ts) ∧ ∀ t ∈ g.rest, t ∈ ts := by
  cases ts with
  | nil => cases h
  | cons t ts =>
    cases h
    exact ⟨fun u hu => (List.takeWhile_sublist _).mem hu,
      fun u hu => (List.dropWhile_sublist _).mem (List.mem_of_mem_drop hu)⟩

/-- a statement whose leaves have the property `P` keeps the property `T` of tables, and gives a value with `Q` -/
def StatementsKeep (registry : Registry) (P : TokenKind → Prop) (T : Bindings Value → Prop) (Q : Value → Prop) : Prop :=
  ∀ (kind : StatementKind) (t t' : Bindings Value) (v : Value) (id id' : Nat), kind.Over P → T t →
    kind.execute registry t id = .ok ((v, t'), id') → Q v ∧ T t'

/-- a run whose tokens left have the property `P` and whose table has the property `T` -/
structure RunHas (P : TokenKind → Prop) (T : Bindings Value → Prop) (r : Run) : Prop where
  tokens : ∀ t ∈ r.tokens, P t.kind
  table : T r.table

section Runs

variable {registry : Registry} {policy : ErrorPolicy} {P : TokenKind → Prop} {T : Bindings Value → Prop}
  {Q : Value → Prop}

/-- **One step.** A statement that fails, or that cannot be read, leaves the table as it was. -/
theorem step?_keeps (hkeep : StatementsKeep registry P T Q) {r r' : Run} {s : Step} (h : RunHas P T r)
    (hstep : r.step? registry policy = some (s, r')) : (∀ v, s.output = .ok v → Q v) ∧ RunHas P T r' := by
  unfold Run.step? at hstep
  split at hstep
  · cases hstep
  · cases hnext : Segment.next? r.tokens with
    | none => rw [hnext] at hstep; cases hstep
    | some g =>
      obtain ⟨htokens, hrest⟩ := mem_of_next? hnext
      have hleft : ∀ t ∈ g.rest, P t.kind := fun t ht => h.tokens t (hrest t ht)
      rw [hnext] at hstep
      simp only at hstep
      cases hparse : Statement.parse g.tokens g.stop with
      | error e =>
        rw [hparse] at hstep
        cases hstep
        refine ⟨fun v hv => ?_, hleft, h.table⟩
        cases hv
      | ok st =>
        have hover : st.kind.Over P := Leaves.parse_over hparse fun t ht => h.tokens t (htokens t ht)
        rw [hparse] at hstep
        simp only at hstep
        split at hstep
        · next v t' id' hrun =>
          obtain ⟨hv, ht'⟩ := hkeep _ _ _ _ _ _ hover h.table hrun
          cases hstep
          refine ⟨fun w hw => ?_, hleft, ht'⟩
          cases hw
          exact hv
        · cases hstep
          refine ⟨fun v hv => ?_, hleft, h.table⟩
          cases hv

/-- **Any number of steps.** -/
theorem take_keeps (hkeep : StatementsKeep registry P T Q) (n : Nat) {r : Run} (h : RunHas P T r) :
    (∀ s ∈ (r.take registry policy n).1, ∀ v, s.output = .ok v → Q v) ∧ RunHas P T (r.take registry policy n).2.1 := by
  induction n generalizing r with
  | zero => exact ⟨fun s hs => absurd hs List.not_mem_nil, h⟩
  | succ n ih =>
    cases hstep : r.step? registry policy with
    | none =>
      rw [RunFold.take_succ_none registry policy n hstep]
      exact ⟨fun s hs => absurd hs List.not_mem_nil, h.tokens, h.table⟩
    | some p =>
      obtain ⟨hfirst, hafter⟩ := step?_keeps hkeep h hstep
      obtain ⟨hothers, hlast⟩ := ih hafter
      rw [RunFold.take_succ_some registry policy n hstep]
      refine ⟨fun s hs => ?_, hlast⟩
      rcases List.mem_cons.1 hs with rfl | hs
      · exact hfirst
      · exact hothers s hs

end Runs

/-! ## Loading -/

open CurveScript.Plugin

/-- What is registered under a free name stands under it, and nothing else changes. -/
theorem register_eq_ok {r r' : Registry} {name : String} {info : FunctionInfo} {call : NativeCall} {source : Source}
    {id : Nat} (h : r.register name info call source id = .ok r') :
    r.get? name = none ∧ r'.constants = r.constants ∧
      ∀ x, r'.get? x = if x = name then some (Registry.entry name info call source id) else r.get? x := by
  unfold Registry.register at h
  cases hget : r.get? name with
  | some existing => rw [hget] at h; cases h
  | none =>
    rw [hget] at h
    cases h
    exact ⟨rfl, rfl, fun x => r.functions.get?_set name x _⟩

/-- registering a function of the kind `Q` keeps the property `P` of registries -/
def RegistrationKeeps (Q : NativeCall → Prop) (P : Registry → Prop) : Prop :=
  ∀ (r r' : Registry) (name : String) (info : FunctionInfo) (call : NativeCall) (source : Source) (id : Nat), Q call →
    P r → r.register name info call source id = .ok r' → P r'

/-- registering a function under the name in its description, where the two go together as `Q` says, keeps the property
`P` of registries -/
def EntryKeeps (Q : FunctionInfo → NativeCall → Prop) (P : Registry → Prop) : Prop :=
  ∀ (r r' : Registry) (info : FunctionInfo) (call : NativeCall) (source : Source) (id : Nat), Q info call → P r →
    r.register info.name info call source id = .ok r' → P r'

/-- what is opened, if anything, lists functions of the kind `Q` only -/
def Lists (Q : NativeCall → Prop) (opening : Opening) : Prop :=
  ∀ m fs, opening = .ok (.ok m) → m.functions = .ok fs → ∀ f ∈ fs, Q f.call

/-- what is opened, if anything, lists functions that go together with their descriptions as `Q` says -/
def Describes (Q : FunctionInfo → NativeCall → Prop) (opening : Opening) : Prop :=
  ∀ m fs, opening = .ok (.ok m) → m.functions = .ok fs → ∀ f ∈ fs, ∀ info, f.info = .ok info → Q info f.call

section Loading

variable {Q : FunctionInfo → NativeCall → Prop} {P : Registry → Prop}

theorem add_keeps (hkeep : EntryKeeps Q P) {s : Staged} (plugin path : String) {info : FunctionInfo} {call : NativeCall}
    (hcall : Q info call) (h : P s.registry) : P (s.add plugin path info call).registry := by
  unfold Staged.add
  split
  · next hr => exact hkeep _ _ _ _ _ _ hcall h hr
  · exact h
  · exact h

theorem addAll_keeps (hkeep : EntryKeeps Q P) (plugin path : String) {fs : List ModuleFunction}
    (hfs : ∀ f ∈ fs, ∀ info, f.info = .ok info → Q info f.call) {s : Staged} (h : P s.registry) :
    P (s.addAll plugin path fs).1.registry := by
  induction fs generalizing s with
  | nil => exact h
  | cons f fs ih =>
    obtain ⟨hf, hrest⟩ := List.forall_mem_cons.1 hfs
    unfold Staged.addAll
    split
    · exact h
    · next info hinfo => exact ih hrest (add_keeps hkeep plugin path (hf info hinfo) h)

theorem tryCandidate_keeps (hkeep : EntryKeeps Q P) {stock : Stock} (path : String) {opening : Opening}
    (hopening : Describes Q opening) (h : P stock.registry) : P (tryCandidate stock path opening).2.registry := by
  unfold tryCandidate
  split
  · exact h
  · exact h
  · next m =>
    unfold tryModule
    split
    · exact h
    · exact h
    · next name fs _ hfs =>
      have hall := addAll_keeps hkeep name path (hopening m fs rfl hfs) (s := ⟨stock.registry, stock.nextId, [], []⟩) h
      split
      · next staged hstaged => rw [hstaged] at hall; exact hall
      · exact h

theorem tryAll_keeps (hkeep : EntryKeeps Q P) {candidates : List (String × Opening)}
    (hcandidates : ∀ c ∈ candidates, Describes Q c.2) {stock : Stock} (h : P stock.registry) :
    P (tryAll stock candidates).2.registry := by
  induction candidates generalizing stock with
  | nil => exact h
  | cons c rest ih =>
    obtain ⟨hc, hrest⟩ := List.forall_mem_cons.1 hcandidates
    exact ih hrest (tryCandidate_keeps hkeep c.1 hc h)

/-- **Loading plugins** keeps what registering one of their functions, with its description, keeps. -/
theorem load_keeps_described (hkeep : EntryKeeps Q P) (enabled reportConflicts : Bool) {source : PluginSource}
    {roots : List String} (hsource : ∀ c ∈ (source roots).candidates, Describes Q c.2) {stock : Stock}
    (h : P stock.registry) : P (loadPlugins enabled reportConflicts source roots stock).stock.registry := by
  unfold loadPlugins
  split
  · exact tryAll_keeps hkeep hsource h
  · exact h

end Loading

/-- Loading plugins keeps what registering one of their functions keeps, under any name and description. -/
theorem load_keeps {Q : NativeCall → Prop} {P : Registry → Prop} (hkeep : RegistrationKeeps Q P)
    (enabled reportConflicts : Bool) {source : PluginSource} {roots : List String}
    (hsource : ∀ c ∈ (source roots).candidates, Lists Q c.2) {stock : Stock} (h : P stock.registry) :
    P (loadPlugins enabled reportConflicts source roots stock).stock.registry := by
  have hentries : EntryKeeps (fun _ => Q) P := fun r r' info => hkeep r r' info.name info
  exact load_keeps_described hentries enabled reportConflicts
    (fun c hc m fs hm hfs f hf _ _ => hsource c hc m fs hm hfs f hf) h

end CurveScript.Invariants
