/-
What a sweep makes of the points of a range.

A sweep merges known values, fresh results, failed calls and results that are not numbers into the two lists of a
curve, and fills the cache on its way. `Interleaved` says how the two lists come from the points of the range: in
order, and each point in one of them. It holds from every cache that can be reached for the graph (`Reachable`), since
the entries of such a cache are what calling the graph gives (`Faithful`), and in whatever order the points make their
steps.

Nothing is assumed of the graph. Calls with different next identities give values that differ in identities at most
(`invoke_steady`), and a curve shows no identity.

Results:
- `plain_answers`, `sweep_faithful`: a call, and a list of points.
- `interleaved_curve`: the curve of outcomes.
- `sweep_accounts`: the theorem.
Witness: `reciprocals_accounted`, with a failure at 0 and a value known before the sweep.
-/
import CurveScript.Proofs.Transparency

namespace CurveScript.Sweeping

open CurveScript.Likeness CurveScript.Schedules CurveScript.Transparency Std

variable {g : Graph} {n : Nat} {c : SampleCache}

/-! ## What a graph has at a number -/

/-- calling the graph with `x` gives the number `y` -/
def Gives (g : Graph) (n : Nat) (x y : Float) : Prop := ∃ v m, g.invoke x n = .ok (v, m) ∧ v.number? = some y

/-- calling the graph with `x` gives no number, and this is the message that says why -/
inductive Lacks (g : Graph) (n : Nat) (x : Float) : String → Prop where
  | failed {e : EvalError} (h : g.invoke x n = .error e) : Lacks g n x e.message
  | other {v : Value} {m : Nat} (h : g.invoke x n = .ok (v, m)) (hv : v.number? = none) :
      Lacks g n x (EvalError.invalidOperand "plot" v.kind).message

/-- whether calling the graph with `x` succeeds, with a number or not -/
def succeeds (g : Graph) (n : Nat) (x : Float) : Bool := (g.invoke x n).isOk

/-- the y-value that calling the graph with `x` gives -/
def outcome (g : Graph) (n : Nat) (x : Float) : Except EvalError Float :=
  Curve.ordinate ((g.invoke x n).map Prod.fst)

/-- **The next identity does not matter** to what can be seen of a call. -/
theorem invoke_steady (g : Graph) (x : Float) (m n : Nat) :
    Outcomes Eq (fun p q : Value × Nat => p.1.number? = q.1.number? ∧ p.1.kind = q.1.kind) (g.invoke x m)
      (g.invoke x n) :=
  (invoke_alike g x m n).mono (fun _ _ he => he) fun _ _ halike => ⟨number?_alike halike, kind_alike halike⟩

theorem succeeds_steady (g : Graph) (x : Float) (m n : Nat) : succeeds g m x = succeeds g n x := by
  have hsteady := invoke_steady g x m n
  unfold succeeds
  generalize g.invoke x m = r, g.invoke x n = r' at hsteady ⊢
  cases hsteady <;> rfl

theorem ordinate_congr {v w : Value} (hnumber : v.number? = w.number?) (hkind : v.kind = w.kind) :
    Curve.ordinate (.ok v) = Curve.ordinate (.ok w) := by
  simp only [Curve.ordinate, hnumber, hkind]

theorem outcome_steady (g : Graph) (x : Float) (m n : Nat) : outcome g m x = outcome g n x := by
  have hsteady := invoke_steady g x m n
  unfold outcome
  generalize g.invoke x m = r, g.invoke x n = r' at hsteady ⊢
  cases hsteady with
  | error he => rw [he]
  | ok hseen => exact ordinate_congr hseen.1 hseen.2

/-- the result is one that calling the graph with `x` can have, as far as it can be seen -/
def Answers (g : Graph) (n : Nat) (x : Float) (r : Except EvalError Value) : Prop :=
  r.isOk = succeeds g n x ∧ Curve.ordinate r = outcome g n x

/-- **A call**, whatever the next identity is. -/
theorem plain_answers (g : Graph) (n : Nat) (x : Float) (id : Nat) : Answers g n x (Caller.plain g x id).1 := by
  unfold Answers Caller.plain
  rw [← succeeds_steady g x id n, ← outcome_steady g x id n, succeeds, outcome]
  cases g.invoke x id <;> exact ⟨rfl, rfl⟩

/-! ## Caches -/

/-- the states of the cache of a graph: it is new, or comes about by asking for a value, by a sweep, or by clearing -/
inductive Reachable (g : Graph) : SampleCache → Prop where
  | new : Reachable g (.ofGraph g)
  | get {c : SampleCache} (h : Reachable g c) (x : Float) (id : Nat) : Reachable g (c.get .plain x id).2.1
  | sample {c : SampleCache} (h : Reachable g c) (range : SampleRange) (schedule : List Nat) (id : Nat) :
      Reachable g (c.sample .plain range schedule id).2.1
  | clear {c : SampleCache} (h : Reachable g c) : Reachable g c.clear

/-- The cache is one of the graph, and calling the graph gives what the entries show. -/
structure Faithful (g : Graph) (n : Nat) (c : SampleCache) : Prop where
  graph : c.graph = g
  entries : Entries (Answers g n) c

theorem faithful_empty (g : Graph) (n : Nat) : Faithful g n ⟨g, ∅⟩ := ⟨rfl, entries_empty g⟩

/-- the curve of outcomes -/
def curveOf (range : SampleRange) (outcomes : List (Float × Except EvalError Float)) : Curve :=
  outcomes.foldr (fun r curve => curve.push r.1 r.2) ⟨range, [], []⟩

theorem ofResults_eq (range : SampleRange) (results : List (Float × Except EvalError Value)) :
    Curve.ofResults range results = curveOf range (results.map fun p => (p.1, Curve.ordinate p.2)) := by
  rw [curveOf, List.foldr_map]
  rfl

/-- **The points of a sweep**, whatever the schedule: the outcomes do not depend on the cache, and its keys grow by the
numbers at which the graph succeeds. -/
theorem sweep_faithful (h : Faithful g n c) (schedule : List Nat) (xs : List Float) (id : Nat) :
    (c.sweep .plain schedule xs id).1.map (fun p => (p.1, Curve.ordinate p.2)) =
        xs.map (fun x => (x, outcome g n x)) ∧
      Faithful g n (c.sweep .plain schedule xs id).2.1 ∧
      ∀ bits, bits ∈ (c.sweep .plain schedule xs id).2.1.points ↔
        bits ∈ c.points ∨ ∃ x ∈ xs, x.toBits = bits ∧ succeeds g n x = true := by
  obtain ⟨rfl, hentries⟩ := h
  obtain ⟨hpoints, hresults, hgraph, hentries', hkeys⟩ := sweep_law (plain_answers c.graph n) hentries schedule xs id
  generalize (c.sweep .plain schedule xs id).1 = results at hpoints hresults hkeys ⊢
  subst hpoints
  refine ⟨?_, ⟨hgraph, hentries'⟩, fun bits => (hkeys bits).trans (or_congr_right ⟨?_, ?_⟩)⟩
  · rw [List.map_map]
    exact List.map_congr_left fun p hp => Prod.ext rfl (hresults p hp).2
  · rintro ⟨x, v, hp, hbits⟩
    exact ⟨x, List.mem_map.2 ⟨_, hp, rfl⟩, hbits, (hresults _ hp).1.symm⟩
  · rintro ⟨x, hx, hbits, hsuccess⟩
    obtain ⟨⟨x, r⟩, hp, rfl⟩ := List.mem_map.1 hx
    cases r with
    | ok v => exact ⟨x, v, hp, hbits⟩
    | error e => exact absurd ((hresults _ hp).1.trans hsuccess) Bool.false_ne_true

theorem sample_faithful (h : Faithful g n c) (range : SampleRange) (schedule : List Nat) (id : Nat) :
    (c.sample .plain range schedule id).1 = curveOf range (range.points.map fun x => (x, outcome g n x)) ∧
      Faithful g n (c.sample .plain range schedule id).2.1 := by
  obtain ⟨hresults, hfaithful, -⟩ := sweep_faithful h schedule range.points id
  refine ⟨?_, hfaithful⟩
  rw [← hresults, ← ofResults_eq]
  rfl

/-- **The entries of a cache that can be reached** are what calling the graph gives. -/
theorem Reachable.faithful (h : Reachable g c) (n : Nat) : Faithful g n c := by
  induction h with
  | new => exact faithful_empty g n
  | get _ x id ih =>
    have hsingle := (sweep_faithful ih [] [x] id).2.1
    rwa [sweep_single] at hsingle
  | sample _ range schedule id ih => exact (sample_faithful ih range schedule id).2
  | clear _ ih => exact ih.graph ▸ faithful_empty _ n

/-! ## Curves -/

/-- Numbers in order, each of which is either the next point with what the graph gives there, or the next failure with
the message why it gives nothing. -/
inductive Interleaved (g : Graph) (n : Nat) : List Float → List (Float × Float) → List SampleFailure → Prop where
  | nil : Interleaved g n [] [] []
  | point {x y : Float} {xs points failures} (h : Gives g n x y) (hrest : Interleaved g n xs points failures) :
      Interleaved g n (x :: xs) ((x, y) :: points) failures
  | failure {x : Float} {message : String} {xs points failures} (h : Lacks g n x message)
      (hrest : Interleaved g n xs points failures) : Interleaved g n (x :: xs) points (⟨x, message⟩ :: failures)

/-- A graph gives a number or lacks one. -/
theorem outcome_cases (g : Graph) (n : Nat) (x : Float) :
    (∃ y, outcome g n x = .ok y ∧ Gives g n x y) ∨ ∃ e, outcome g n x = .error e ∧ Lacks g n x e.message := by
  unfold outcome
  cases hinvoke : g.invoke x n with
  | error e => exact Or.inr ⟨e, rfl, .failed hinvoke⟩
  | ok p =>
    simp only [Except.map, Curve.ordinate]
    cases hnumber : p.1.number? with
    | some y => exact Or.inl ⟨y, rfl, p.1, p.2, hinvoke, hnumber⟩
    | none => exact Or.inr ⟨_, rfl, .other hinvoke hnumber⟩

/-- A call that does not succeed leaves the counter as it is. -/
theorem plain_fails {x : Float} {s : Nat} (h : (!succeeds g n x) = true) : ∃ e, Caller.plain g x s = (.error e, s) := by
  rw [succeeds_steady g x n s, succeeds] at h
  unfold Caller.plain
  cases hr : g.invoke x s with
  | error e => exact ⟨e, rfl⟩
  | ok p => rw [hr] at h; cases h

/-- Not both. -/
theorem Gives.not_lacks {x y : Float} {message : String} (h : Gives g n x y) : ¬ Lacks g n x message := by
  obtain ⟨v, m, hinvoke, hnumber⟩ := h
  rintro (herror | ⟨hother, hnone⟩)
  · rw [hinvoke] at herror
    cases herror
  · rw [hinvoke] at hother
    cases hother
    rw [hnumber] at hnone
    cases hnone

theorem curveOf_range (range : SampleRange) (results : List (Float × Except EvalError Float)) :
    (curveOf range results).range = range := by
  induction results with
  | nil => rfl
  | cons r results ih =>
    change (Curve.push r.1 r.2 (curveOf range results)).range = range
    unfold Curve.push
    split <;> exact ih

/-- **The curve of outcomes** has every point of the range once, in order. -/
theorem interleaved_curve (g : Graph) (n : Nat) (range : SampleRange) (xs : List Float) :
    Interleaved g n xs (curveOf range (xs.map fun x => (x, outcome g n x))).points
      (curveOf range (xs.map fun x => (x, outcome g n x))).failures := by
  induction xs with
  | nil => exact .nil
  | cons x xs ih =>
    change Interleaved g n (x :: xs) (Curve.push x (outcome g n x) _).points (Curve.push x (outcome g n x) _).failures
    rcases outcome_cases g n x with ⟨y, hy, hgives⟩ | ⟨e, he, hlacks⟩
    · rw [hy]
      exact .point hgives ih
    · rw [he]
      exact .failure hlacks ih

/-! ## The theorem -/

/-- **A sweep accounts for every point**, from any cache of the graph that can be reached, whatever the next identities
and the schedules are. The curve has the range that was asked for, and its points and failures are the points of the
range, in order and each once: a point where calling the graph gives a number, and a failure with the message of what
else comes of the call, which is never both. The keys of the cache grow by the bit patterns of the points at which the
call succeeds. Sweeping again gives the same curve, and calls the graph once for each point at which it fails and for no
other; without a schedule it does so in order. -/
theorem sweep_accounts {g : Graph} {c : SampleCache} (h : Reachable g c) (range : SampleRange)
    (schedule schedule' : List Nat) (id id' n : Nat) :
    (c.sample .plain range schedule id).1.range = range ∧
    Interleaved g n range.points (c.sample .plain range schedule id).1.points
      (c.sample .plain range schedule id).1.failures ∧
    (∀ x y message, Gives g n x y → ¬ Lacks g n x message) ∧
    (∀ bits, bits ∈ (c.sample .plain range schedule id).2.1.points ↔
      bits ∈ c.points ∨ ∃ x ∈ range.points, x.toBits = bits ∧ succeeds g n x = true) ∧
    ((c.sample .plain range schedule id).2.1.sample .plain range schedule' id').1 =
      (c.sample .plain range schedule id).1 ∧
    ∃ log, (c.sample .plain range schedule id).2.1.sample (noting .plain) range schedule' (id', []) =
        ((c.sample .plain range schedule id).1, (c.sample .plain range schedule id).2.1, id', log) ∧
      log.Perm ((range.points.filter fun x => !succeeds g n x).map (callAt g)) ∧
      (schedule' = [] → log = (range.points.filter fun x => !succeeds g n x).map (callAt g)) := by
  have hfaithful := h.faithful n
  obtain ⟨hcurve, hafter⟩ := sample_faithful hfaithful range schedule id
  obtain ⟨hagain, -⟩ := sample_faithful hafter range schedule' id'
  obtain ⟨-, -, hkeys⟩ := sweep_faithful hfaithful schedule range.points id
  have hsame : ((c.sample .plain range schedule id).2.1.sample .plain range schedule' id').1 =
      (c.sample .plain range schedule id).1 := hagain.trans hcurve.symm
  refine ⟨?_, ?_, fun _ _ _ => Gives.not_lacks, hkeys, hsame, ?_⟩
  · rw [hcurve]
    exact curveOf_range range _
  · rw [hcurve]
    exact interleaved_curve g n range range.points
  · change ∀ bits, bits ∈ (c.sample .plain range schedule id).2.1.points ↔ _ at hkeys
    generalize (c.sample .plain range schedule id).2.1 = after at hafter hkeys hsame ⊢
    obtain ⟨rfl, hentries⟩ := hafter
    have hknown : ∀ x ∈ range.points, x.toBits ∈ after.points ↔ (!succeeds after.graph n x) = false := by
      intro x hx
      rw [Bool.not_eq_false']
      constructor
      · intro hmem
        obtain ⟨v, hv⟩ := Option.isSome_iff_exists.1 (HashMap.mem_iff_isSome_getElem?.1 hmem)
        exact (hentries x v hv).1.symm
      · intro hsuccess
        exact (hkeys x.toBits).2 (Or.inr ⟨x, hx, rfl, hsuccess⟩)
    have hfails : ∀ x s, (!succeeds after.graph n x) = true → ∃ e, Caller.plain after.graph x s = (.error e, s) :=
      fun x s => plain_fails
    obtain ⟨hcache, hid, hcalls⟩ := sweep_settled hfails hknown schedule' (id', [])
    have hnoted := sample_noting .plain after range schedule' (id', [])
    refine ⟨(after.sweep (noting .plain) schedule' range.points (id', [])).2.2.2, ?_, hcalls, ?_⟩
    · refine Prod.ext ((congrArg Prod.fst hnoted).trans hsame) (Prod.ext hcache (Prod.ext hid rfl))
    · rintro rfl
      exact turns_settled hfails hknown (id', [])

/-! ## Witness: reciprocals -/

/-- `fn(x) => 1 / x` as a graph -/
def reciprocal : Graph :=
  ⟨⟨some "r", 7, .script ⟨["x"], .binary ⟨9, 14⟩ .div (.integer ⟨9, 10⟩ 1) (.var ⟨13, 14⟩ "x"), .empty, .empty⟩,
    none⟩, none⟩

/-- the reciprocals with that of 1 known -/
def oneKnown : SampleCache := ((SampleCache.ofGraph reciprocal).get .plain 1.0 8).2.1

/-- From -1 to 1 in steps of 1 the graph fails at 0 only, so sweeping again calls it once. -/
theorem reciprocals_accounted :
    Interleaved reciprocal 8 (SampleRange.points ⟨-1.0, 1.0, 1.0⟩)
        (oneKnown.sample .plain ⟨-1.0, 1.0, 1.0⟩ [2, 1, 0] 8).1.points
        (oneKnown.sample .plain ⟨-1.0, 1.0, 1.0⟩ [2, 1, 0] 8).1.failures ∧
      ((oneKnown.sample .plain ⟨-1.0, 1.0, 1.0⟩ [2, 1, 0] 8).2.1.sample (noting .plain) ⟨-1.0, 1.0, 1.0⟩ []
        (8, [])).2.2.2 = [(7, (0.0 : Float).toBits)] := by
  obtain ⟨-, hinterleaved, -, -, -, log, hcalls, -, hlog⟩ :=
    sweep_accounts (c := oneKnown) (.get .new 1.0 8) ⟨-1.0, 1.0, 1.0⟩ [2, 1, 0] [] 8 8 8
  refine ⟨hinterleaved, ?_⟩
  rw [hcalls, hlog rfl]
  decide +kernel

end CurveScript.Sweeping
