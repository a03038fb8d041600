/-
What redefinitions keep alive.

A function captures all bindings in force where it is defined, the function of its own name among them. So the one that a
redefinition overwrites is not released: the new one holds it. `Reachable` follows values and captured tables, and
`objects` are the identities of the functions that are reached.

A definition makes one object and captures the table before it, so that table's objects are reached as before
(`objects_define`). Counting them asks for identities that are below the counter, which holds of every table of a session
(`lived_spent`).

Results:
- `objects_finite`: a table reaches finitely many functions.
- `reachable_define`, `objects_define`: one definition.
- `runs_define`: any number of runs of it. `redefinitions_pile_up`: the theorem.
- `second_run_adds`: refutation. Running a definition again does not leave as many objects as running it once.
Witness: `increments_pile_up`.
-/
import CurveScript.Proofs.Likeness
import CurveScript.Proofs.Sessions
import Mathlib.Data.Set.Card
import Mathlib.Order.Interval.Set.Nat

namespace CurveScript.Redefinition

open CurveScript.Finiteness CurveScript.Identities CurveScript.Sessions

variable {t t' : Bindings Value} {f g : FunctionValue} {name : String}

/-! ## Reachable functions -/

/-- The function can be reached from the table: it is bound there, or plotted by a bound graph, or reached from the table
that such a function captured. -/
inductive Reachable : Bindings Value → FunctionValue → Prop where
  | bound {t x v f} (hv : t.get? x = some v) (hf : v.function? = some f) : Reachable t f
  | captured {t x v f c g} (hv : t.get? x = some v) (hf : v.function? = some f) (hc : f.body = .script c)
      (hg : Reachable c.captured g) : Reachable t g

/-- the identities of the functions that can be reached from a table -/
def objects (t : Bindings Value) : Set Nat := {id | ∃ f, Reachable t f ∧ f.id = id}

/-- What a table reaches is held by one of its values. -/
theorem Reachable.holds (h : Reachable t f) : ∃ x v, t.get? x = some v ∧ Holds v (.function f) := by
  induction h with
  | bound hv hf => exact ⟨_, _, hv, holds_of_function? hf⟩
  | captured hv hf hc _ ih =>
    obtain ⟨y, w, hw, hholds⟩ := ih
    exact ⟨_, _, hv, (holds_of_function? hf).trans (.trans (.single (.captured hc hw)) hholds)⟩

theorem not_reachable_empty : ¬ Reachable .empty f := by
  intro h
  cases h with
  | bound hv => cases hv
  | captured hv => cases hv

theorem objects_empty : objects .empty = ∅ := by
  ext id
  simp [objects, not_reachable_empty]

/-- the identities of the functions that can be reached through one value -/
def through (v : Value) : Set Nat :=
  {id | ∃ f, v.function? = some f ∧ (f.id = id ∨ ∃ c, f.body = .script c ∧ id ∈ objects c.captured)}

/-- What a table reaches, it reaches through one of its finitely many values. -/
theorem objects_finite_of (h : ∀ x v, t.get? x = some v → (through v).Finite) : (objects t).Finite := by
  have hfinite : {e | e ∈ t.entries ∧ t.get? e.1 = some e.2}.Finite := t.entries.finite_toSet.subset fun e he => he.1
  have hmem : ∀ {x v}, t.get? x = some v → (x, v) ∈ {e | e ∈ t.entries ∧ t.get? e.1 = some e.2} := by
    intro x v hv
    obtain ⟨before, after, hentries, -⟩ := List.lookup_eq_some_iff.1 hv
    exact ⟨by simp [hentries], hv⟩
  refine (hfinite.biUnion fun e he => h e.1 e.2 he.2).subset ?_
  rintro id ⟨f, hf, rfl⟩
  cases hf with
  | bound hv hf => exact Set.mem_biUnion (hmem hv) ⟨f, hf, .inl rfl⟩
  | captured hv hg hc hf => exact Set.mem_biUnion (hmem hv) ⟨_, hg, .inr ⟨_, hc, f, hf, rfl⟩⟩

theorem through_plain {v : Value} (h : v.function? = none) : (through v).Finite := by
  simp [through, h]

/-- A value reaches finitely many functions. The recursion is into what a function captured. -/
theorem through_finite : ∀ v : Value, (through v).Finite
  | .integer n => through_plain rfl
  | .float x => through_plain rfl
  | .unit => through_plain rfl
  | .graph ⟨f, range⟩ => through_finite (.function f)
  | .function ⟨name, id, .native arity call, range⟩ => by
    refine (Set.finite_singleton id).subset ?_
    rintro _ ⟨f, ⟨⟩, rfl | ⟨c, ⟨⟩, -⟩⟩
    rfl
  | .function ⟨name, id, .script ⟨params, body, t, r⟩, range⟩ => by
    have ht : (objects t).Finite := by
      refine objects_finite_of fun x v hv => ?_
      have := Likeness.sizeOf_get? hv
      exact through_finite v
    refine (ht.insert id).subset ?_
    rintro _ ⟨f, ⟨⟩, rfl | ⟨c, ⟨⟩, hc⟩⟩
    · exact Set.mem_insert _ _
    · exact Set.mem_insert_of_mem _ hc
termination_by v => sizeOf v
decreasing_by
  all_goals simp_wf
  all_goals omega

/-- **A table reaches finitely many functions.** -/
theorem objects_finite (t : Bindings Value) : (objects t).Finite := objects_finite_of fun _ v _ => through_finite v

/-! ## Definitions -/

/-- the function that a definition makes against a table -/
def defined (registry : Registry) (name : String) (params : List String) (body : Expr) (t : Bindings Value) (n : Nat) :
    FunctionValue :=
  ⟨some name, n, .script ⟨params, body, t, registry⟩, none⟩

section Define

variable (registry : Registry) (name : String) (params : List String) (body : Expr) (t : Bindings Value) (n : Nat)

/-- A definition always succeeds. -/
theorem execute_define :
    (StatementKind.define name params body).execute registry t n =
      .ok ((.unit, t.set name (.function (defined registry name params body t n))), n + 1) := rfl

/-- **A definition releases nothing:** it adds its function to what the table before it reaches. -/
theorem reachable_define :
    Reachable (t.set name (.function (defined registry name params body t n))) f ↔
      f = defined registry name params body t n ∨ Reachable t f := by
  have hself : (t.set name (.function (defined registry name params body t n))).get? name =
      some (.function (defined registry name params body t n)) := by
    rw [Bindings.get?_set, if_pos rfl]
  constructor
  · intro h
    cases h with
    | @bound _ x v _ hv hf =>
      rw [Bindings.get?_set] at hv
      split at hv
      · cases hv
        exact .inl (Option.some.inj hf).symm
      · exact .inr (.bound hv hf)
    | @captured _ x v g c _ hv hg hc hf =>
      rw [Bindings.get?_set] at hv
      split at hv
      · cases hv
        cases hg
        cases hc
        exact .inr hf
      · exact .inr (.captured hv hg hc hf)
  · rintro (rfl | h)
    · exact .bound hself rfl
    · exact .captured hself rfl rfl h

theorem objects_define :
    objects (t.set name (.function (defined registry name params body t n))) = insert n (objects t) := by
  ext id
  simp only [objects, reachable_define, Set.mem_ofPred_eq, Set.mem_insert_iff]
  constructor
  · rintro ⟨f, rfl | hf, rfl⟩
    · exact .inl rfl
    · exact .inr ⟨f, hf, rfl⟩
  · rintro (rfl | ⟨f, hf, rfl⟩)
    · exact ⟨_, .inl rfl, rfl⟩
    · exact ⟨f, .inr hf, rfl⟩

end Define

/-! ## Running a definition again and again -/

/-- the table and the next identity after `k` runs of a statement -/
def runs (registry : Registry) (s : StatementKind) : Nat → Bindings Value → Nat → Except Failure (Bindings Value × Nat)
  | 0, t, n => .ok (t, n)
  | k + 1, t, n =>
    match s.execute registry t n with
    | .ok ((_, t'), n') => runs registry s k t' n'
    | .error e => .error e

/-- Under the name is a function, in what it captured is another under the same name, and so on, `k` functions deep, down
to the table `t₀`. -/
inductive Chain (name : String) (t₀ : Bindings Value) : Nat → Bindings Value → Prop where
  | here : Chain name t₀ 0 t₀
  | link {k t f c} (hv : t.get? name = some (.function f)) (hc : f.body = .script c) (h : Chain name t₀ k c.captured) :
      Chain name t₀ (k + 1) t

theorem Chain.trans {t₀ t₁ : Bindings Value} {j k : Nat} (h : Chain name t₀ j t₁) (h' : Chain name t₁ k t) :
    Chain name t₀ (j + k) t := by
  induction h' with
  | here => exact h
  | link hv hc _ ih => exact .link hv hc ih

/-- **Runs of a definition** make one object each, and release none. -/
theorem runs_define (registry : Registry) (name : String) (params : List String) (body : Expr) (k : Nat)
    (t : Bindings Value) (n : Nat) :
    ∃ t', runs registry (.define name params body) k t n = .ok (t', n + k) ∧
      (∀ f, Reachable t f → Reachable t' f) ∧ objects t' = objects t ∪ Set.Ico n (n + k) ∧ Chain name t k t' := by
  induction k generalizing t n with
  | zero => exact ⟨t, rfl, fun _ h => h, by simp, .here⟩
  | succ k ih =>
    obtain ⟨t', hruns, hkept, hobjects, hchain⟩ :=
      ih (t.set name (.function (defined registry name params body t n))) (n + 1)
    refine ⟨t', ?_, fun f hf => hkept f ((reachable_define ..).2 (.inr hf)), ?_, ?_⟩
    · rw [runs, execute_define, ← Nat.add_assoc, Nat.add_right_comm, ← hruns]
    · rw [hobjects, objects_define]
      ext id
      by_cases hid : id ∈ objects t
      · simp [hid]
      · simp only [Set.mem_union, Set.mem_insert_iff, Set.mem_Ico, hid, false_or, or_false]
        omega
    · have hfirst : Chain name t 1 (t.set name (.function (defined registry name params body t n))) :=
        .link (by rw [Bindings.get?_set, if_pos rfl]) rfl .here
      rw [Nat.add_comm]
      exact hfirst.trans hchain

theorem runs_add {registry : Registry} {st : StatementKind} {j k n n' : Nat}
    (h : runs registry st j t n = .ok (t', n')) : runs registry st (j + k) t n = runs registry st k t' n' := by
  induction j generalizing t n with
  | zero =>
    cases h
    rw [Nat.zero_add]
  | succ j ih =>
    rw [runs] at h
    rw [Nat.add_right_comm, runs]
    split at h
    · exact ih h
    · cases h

/-- **In a session,** identities below the engine's counter are all that a table reaches. -/
theorem lived_spent {s : Session} (hs : Lived s) (u : Nat) : ∀ id ∈ objects (s.tables u), id < s.engine.nextId := by
  rintro id ⟨f, hf, rfl⟩
  obtain ⟨x, v, hv, hholds⟩ := hf.holds
  exact (lived_distinct hs).spent v f (.bound hv) hholds

/-- **Redefinitions pile up.** Running a definition again leaves one more function to be reached, every time: nothing that
was reached is released, the new function is added, and the captures under its name are one deeper. -/
theorem redefinitions_pile_up (registry : Registry) (name : String) (params : List String) (body : Expr)
    {t : Bindings Value} {n : Nat} (hspent : ∀ id ∈ objects t, id < n) (k : Nat) :
    ∃ once again, runs registry (.define name params body) 1 t n = .ok (once, n + 1) ∧
      runs registry (.define name params body) (1 + k) t n = .ok (again, n + 1 + k) ∧
      (∀ f, Reachable once f → Reachable again f) ∧
      objects again = objects once ∪ Set.Ico (n + 1) (n + 1 + k) ∧
      (objects once).Finite ∧ (objects again).ncard = (objects once).ncard + k ∧
      Chain name t (1 + k) again := by
  obtain ⟨once, honce, -, hobjects, hchain⟩ := runs_define registry name params body 1 t n
  obtain ⟨again, hagain, hkept, hobjects', hchain'⟩ := runs_define registry name params body k once (n + 1)
  refine ⟨once, again, honce, ?_, hkept, hobjects', objects_finite once, ?_, hchain.trans hchain'⟩
  · rw [runs_add honce, hagain]
  · have hdisjoint : Disjoint (objects once) (Set.Ico (n + 1) (n + 1 + k)) := by
      rw [Set.disjoint_left, hobjects]
      rintro id (hid | hid) hnew
      · have := hspent id hid
        have := hnew.1
        omega
      · have := hid.2
        have := hnew.1
        omega
    rw [hobjects', Set.ncard_union_eq hdisjoint (objects_finite once) (Set.finite_Ico _ _)]
    simp

/-! ## Witness and refutation: a function that adds one to what it was -/

/-- the table with the function `f(x) = x`, whose identity is 0 -/
def identityTable : Bindings Value :=
  Bindings.empty.set "f" (.function (defined .empty "f" ["x"] (.var ⟨7, 8⟩ "x") .empty 0))

/-- the body of `f(x) = f(x) + 1` -/
def incremented : Expr :=
  .binary ⟨7, 15⟩ .add (.call ⟨7, 11⟩ (.var ⟨7, 8⟩ "f") [.var ⟨9, 10⟩ "x"]) (.integer ⟨14, 15⟩ 1)

theorem objects_identityTable : objects identityTable = {0} := by
  rw [identityTable, objects_define, objects_empty]
  simp

theorem increments_pile_up :
    (∀ id ∈ objects identityTable, id < 1) ∧
      ∃ once again, runs .empty (.define "f" ["x"] incremented) 1 identityTable 1 = .ok (once, 2) ∧
        runs .empty (.define "f" ["x"] incremented) 3 identityTable 1 = .ok (again, 4) ∧
        (∀ f, Reachable once f → Reachable again f) ∧ objects again = objects once ∪ Set.Ico 2 4 ∧
        (objects once).Finite ∧ (objects again).ncard = (objects once).ncard + 2 ∧
        Chain "f" identityTable 3 again := by
  have hspent : ∀ id ∈ objects identityTable, id < 1 := by
    rw [objects_identityTable]
    simp
  exact ⟨hspent, redefinitions_pile_up .empty "f" ["x"] incremented hspent 2⟩

/-- Each run of `f(x) = f(x) + 1` leaves one function more. -/
theorem runs_incremented (k : Nat) :
    ∃ t, runs .empty (.define "f" ["x"] incremented) k identityTable 1 = .ok (t, 1 + k) ∧ (objects t).ncard = 1 + k := by
  obtain ⟨t, hruns, -, hobjects, -⟩ := runs_define .empty "f" ["x"] incremented k identityTable 1
  have hall : objects t = Set.Ico 0 (1 + k) := by
    rw [hobjects, objects_identityTable]
    ext id
    simp only [Set.mem_union, Set.mem_singleton_iff, Set.mem_Ico]
    omega
  refine ⟨t, hruns, ?_⟩
  rw [hall]
  simp

/-- Running `f(x) = f(x) + 1` once leaves two functions to be reached, and running it again leaves three. -/
theorem second_run_adds :
    ∃ once twice, runs .empty (.define "f" ["x"] incremented) 1 identityTable 1 = .ok (once, 2) ∧
      runs .empty (.define "f" ["x"] incremented) 2 identityTable 1 = .ok (twice, 3) ∧
      (objects once).ncard = 2 ∧ (objects twice).ncard = 3 := by
  obtain ⟨once, honce, hcount⟩ := runs_incremented 1
  obtain ⟨twice, htwice, hcount'⟩ := runs_incremented 2
  exact ⟨once, twice, honce, htwice, hcount, hcount'⟩

end CurveScript.Redefinition
