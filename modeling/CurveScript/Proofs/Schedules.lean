/-
What a sweep does in every order of its steps.

A sweep works on its points side by side, and a schedule says in which order they make their steps. `Advances` lists
what one step can be. What all of these steps keep holds at the end of every sweep (`sweep_keeps`), since a sweep is led
to its end by steps (`follow_finishAll`).

Results:
- `advance_cases`, `sweep_keeps`: a step, and a whole sweep. A value that is asked for alone is a sweep of one point.
- `sweep_law`: results and entries obey every law that the caller's answers obey, and the keys grow by the points that
  succeed.
- `sweep_noting`: a caller that notes its calls changes nothing else.
- `sweep_calls`, `sweep_known`: which calls a sweep makes at most, and that it makes none where there is an entry.
- `sweep_settled`: a sweep over points that are known or fail calls exactly those that fail.
- `sweep_race`: a sweep whose points are all looked up first calls the graph at every point.
-/
import Mathlib
import CurveScript.SampleCache

namespace CurveScript.Schedules

open Std

/-! ## Steps -/

/-- one step of a sweep, at any of its points -/
inductive Advances {σ : Type} (caller : Caller σ) : Sweep σ → Sweep σ → Prop where
  | found {c : SampleCache} {s : σ} {front back : List (Float × Stage)} {x : Float} {v : Value}
      (h : c.points[x.toBits]? = some v) :
      Advances caller ⟨c, front ++ (x, .waiting) :: back, s⟩ ⟨c, front ++ (x, .done (.ok v)) :: back, s⟩
  | missed {c : SampleCache} {s : σ} {front back : List (Float × Stage)} {x : Float}
      (h : c.points[x.toBits]? = none) :
      Advances caller ⟨c, front ++ (x, .waiting) :: back, s⟩ ⟨c, front ++ (x, .missed) :: back, s⟩
  | called {c : SampleCache} {s s' : σ} {front back : List (Float × Stage)} {x : Float} {v : Value}
      (h : caller c.graph x s = (.ok v, s')) :
      Advances caller ⟨c, front ++ (x, .missed) :: back, s⟩ ⟨c, front ++ (x, .called v) :: back, s'⟩
  | failed {c : SampleCache} {s s' : σ} {front back : List (Float × Stage)} {x : Float} {e : EvalError}
      (h : caller c.graph x s = (.error e, s')) :
      Advances caller ⟨c, front ++ (x, .missed) :: back, s⟩ ⟨c, front ++ (x, .done (.error e)) :: back, s'⟩
  | kept {c : SampleCache} {s : σ} {front back : List (Float × Stage)} {x : Float} {v : Value} :
      Advances caller ⟨c, front ++ (x, .called v) :: back, s⟩ ⟨c.keep x v, front ++ (x, .done (.ok v)) :: back, s⟩

/-- A call that succeeds leaves the counter where the call left it. -/
theorem plain_ok {g : Graph} {x : Float} {n n' : Nat} {v : Value} (h : Caller.plain g x n = (.ok v, n')) :
    g.invoke x n = .ok (v, n') := by
  unfold Caller.plain at h
  split at h
  · next heq =>
    cases h
    exact heq
  · cases h

/-- A call that fails leaves the counter as it is. -/
theorem plain_error {g : Graph} {x : Float} {n n' : Nat} {e : EvalError} (h : Caller.plain g x n = (.error e, n')) :
    g.invoke x n = .error e ∧ n' = n := by
  unfold Caller.plain at h
  split at h
  · cases h
  · next heq =>
    cases h
    exact ⟨heq, rfl⟩

section Steps

variable {σ : Type} (caller : Caller σ)

theorem advance_at (c : SampleCache) (s : σ) (front back : List (Float × Stage)) (x : Float) (stage : Stage) :
    (Sweep.mk c (front ++ (x, stage) :: back) s).advance caller front.length =
      ⟨(c.step caller x s stage).2.1, front ++ (x, (c.step caller x s stage).1) :: back,
        (c.step caller x s stage).2.2⟩ := by
  simp [Sweep.advance]

/-- **What a step at a position does**: nothing where there is no point or it is done, or else a step of the sweep. -/
theorem advance_cases (w : Sweep σ) (k : Nat) : w.advance caller k = w ∨ Advances caller w (w.advance caller k) := by
  by_cases hk : k < w.tasks.length
  · obtain ⟨c, tasks, s⟩ := w
    obtain ⟨front, ⟨x, stage⟩, back, rfl, rfl⟩ : ∃ front task back, tasks = front ++ task :: back ∧ front.length = k :=
      ⟨tasks.take k, tasks[k], tasks.drop (k + 1), by simp, by simpa using hk.le⟩
    rw [advance_at]
    cases stage with
    | waiting =>
      simp only [SampleCache.step]
      cases h : c.points[x.toBits]? with
      | some v => exact Or.inr (.found h)
      | none => exact Or.inr (.missed h)
    | missed =>
      simp only [SampleCache.step]
      rcases h : caller c.graph x s with ⟨e | v, s'⟩
      · exact Or.inr (.failed h)
      · exact Or.inr (.called h)
    | called v => exact Or.inr .kept
    | done r => exact Or.inl rfl
  · have hnone : w.tasks[k]? = none := List.getElem?_eq_none (Nat.le_of_not_lt hk)
    exact Or.inl (by rw [Sweep.advance, hnone])

theorem follow_append (w : Sweep σ) (first second : List Nat) :
    w.follow caller (first ++ second) = (w.follow caller first).follow caller second :=
  List.foldl_append

/-- A property that all steps keep holds after every schedule. -/
theorem follow_keeps {I : Sweep σ → Prop} (hstep : ∀ {w w'}, Advances caller w w' → I w → I w') {w : Sweep σ} (h : I w)
    (schedule : List Nat) : I (w.follow caller schedule) := by
  induction schedule generalizing w with
  | nil => exact h
  | cons k schedule ih =>
    rcases advance_cases caller w k with hsame | hadvances
    · exact ih (by rwa [hsame])
    · exact ih (hstep hadvances h)

/-! ## Sweeps -/

/-- three steps are enough for a point -/
theorem finish_advances (c : SampleCache) (s : σ) (front back : List (Float × Stage)) (x : Float) (stage : Stage) :
    (Sweep.mk c (front ++ (x, stage) :: back) s).follow caller (List.replicate 3 front.length) =
      ⟨(c.finish caller x s stage).2.1, front ++ (x, .done (c.finish caller x s stage).1) :: back,
        (c.finish caller x s stage).2.2⟩ := by
  have hdone : ∀ (c : SampleCache) (s : σ) (r : Except EvalError Value), c.step caller x s (.done r) = (.done r, c, s) :=
    fun _ _ _ => rfl
  have hcalled : ∀ (c : SampleCache) (s : σ) (v : Value),
      c.step caller x s (.called v) = (.done (.ok v), c.keep x v, s) := fun _ _ _ => rfl
  simp only [Sweep.follow, List.replicate, List.foldl_cons, List.foldl_nil, advance_at]
  cases stage with
  | waiting =>
    simp only [SampleCache.finish, SampleCache.get, SampleCache.step]
    cases c.points[x.toBits]? with
    | some v => rfl
    | none =>
      simp only [SampleCache.compute]
      rcases caller c.graph x s with ⟨e | v, s'⟩ <;> rfl
  | missed =>
    simp only [SampleCache.finish, SampleCache.compute, SampleCache.step]
    rcases caller c.graph x s with ⟨e | v, s'⟩ <;> rfl
  | called v => rfl
  | done r => rfl

/-- the end of a sweep, where all points are done -/
def ended (r : List (Float × Except EvalError Value) × SampleCache × σ) : Sweep σ :=
  ⟨r.2.1, r.1.map fun p => (p.1, .done p.2), r.2.2⟩

/-- **What is left in turn is left to steps**: some schedule does it. -/
theorem follow_finishAll (c : SampleCache) (s : σ) (front tasks : List (Float × Stage)) :
    ∃ schedule, (Sweep.mk c (front ++ tasks) s).follow caller schedule =
      ⟨(c.finishAll caller s tasks).2.1, front ++ (ended (c.finishAll caller s tasks)).tasks,
        (c.finishAll caller s tasks).2.2⟩ := by
  induction tasks generalizing c s front with
  | nil => exact ⟨[], rfl⟩
  | cons task tasks ih =>
    obtain ⟨x, stage⟩ := task
    obtain ⟨schedule, hrest⟩ := ih (c.finish caller x s stage).2.1 (c.finish caller x s stage).2.2
      (front ++ [(x, .done (c.finish caller x s stage).1)])
    refine ⟨List.replicate 3 front.length ++ schedule, ?_⟩
    rw [follow_append, finish_advances, ← List.append_cons] at *
    rw [hrest]
    simp [ended, SampleCache.finishAll]

/-- **A property that all steps keep** holds at the end of every sweep. -/
theorem sweep_keeps {I : Sweep σ → Prop} (hstep : ∀ {w w'}, Advances caller w w' → I w → I w') {c : SampleCache}
    {xs : List Float} {s : σ} (hstart : I (c.start xs s)) (schedule : List Nat) :
    I (ended (c.sweep caller schedule xs s)) := by
  let w := (c.start xs s).follow caller schedule
  have hw : I w := follow_keeps caller hstep hstart schedule
  obtain ⟨rest, hrest⟩ := follow_finishAll caller w.cache w.state [] w.tasks
  have hended : w.follow caller rest = ended (c.sweep caller schedule xs s) := hrest
  exact hended ▸ follow_keeps caller hstep hw rest

end Steps

/-! ## Laws of results -/

section Laws

variable {σ : Type} {caller : Caller σ} {R : Float → Except EvalError Value → Prop} {c : SampleCache} {xs : List Float}

/-- the entries of the cache obey the law -/
def Entries (R : Float → Except EvalError Value → Prop) (c : SampleCache) : Prop :=
  ∀ x v, c.points[x.toBits]? = some v → R x (.ok v)

theorem entries_empty (g : Graph) : Entries R ⟨g, ∅⟩ := by
  intro x v hv
  rw [HashMap.getElem?_empty] at hv
  cases hv

/-- An entry of a cache that has kept a value is this value, or was there before. -/
theorem keep_entry {x : Float} {v w : Value} {bits : UInt64} (h : (c.keep x v).points[bits]? = some w) :
    (x.toBits = bits ∧ w = v) ∨ c.points[bits]? = some w := by
  simp only [SampleCache.keep, HashMap.getElem?_insert] at h
  split at h
  · next heq =>
    cases h
    exact Or.inl ⟨beq_iff_eq.1 heq, rfl⟩
  · exact Or.inr h

theorem Entries.keep (h : Entries R c) {x : Float} {v : Value} (hv : R x (.ok v)) : Entries R (c.keep x v) := by
  intro y w hw
  rcases keep_entry hw with ⟨hbits, rfl⟩ | hold
  · rwa [← Float.toBits_inj.1 hbits]
  · exact h y w hold

theorem mem_keep {x : Float} {v : Value} {bits : UInt64} :
    bits ∈ (c.keep x v).points ↔ x.toBits = bits ∨ bits ∈ c.points := by
  rw [SampleCache.keep, HashMap.mem_insert, beq_iff_eq]

/-- A sweep of the points `xs` through the cache `c`, of which everything so far obeys the law. -/
structure Lawful (R : Float → Except EvalError Value → Prop) (c : SampleCache) (xs : List Float) (w : Sweep σ) :
    Prop where
  graph : w.cache.graph = c.graph
  points : w.tasks.map Prod.fst = xs
  entries : Entries R w.cache
  called : ∀ x v, (x, Stage.called v) ∈ w.tasks → R x (.ok v)
  done : ∀ x r, (x, Stage.done r) ∈ w.tasks → R x r
  key : ∀ bits, bits ∈ w.cache.points ↔
    bits ∈ c.points ∨ ∃ x v, (x, Stage.done (.ok v)) ∈ w.tasks ∧ x.toBits = bits

theorem lawful_step (hcaller : ∀ x s, R x (caller c.graph x s).1) {w w' : Sweep σ} (hw : Advances caller w w')
    (h : Lawful R c xs w) : Lawful R c xs w' := by
  obtain ⟨hgraph, hpoints, hentries, hcalled, hdone, hkey⟩ := h
  cases hw with
  | found hfound =>
    have hmem := HashMap.mem_iff_isSome_getElem?.2 (Option.isSome_iff_exists.2 ⟨_, hfound⟩)
    have hvalue := hentries _ _ hfound
    refine ⟨hgraph, by simpa using hpoints, hentries, ?_, ?_, ?_⟩ <;> grind
  | missed _ => refine ⟨hgraph, by simpa using hpoints, hentries, ?_, ?_, ?_⟩ <;> grind
  | @called _ s _ _ _ x v hcall =>
    have hvalue : R x (.ok v) := by simpa [← hgraph, hcall] using hcaller x s
    refine ⟨hgraph, by simpa using hpoints, hentries, ?_, ?_, ?_⟩ <;> grind
  | @failed _ s _ _ _ x e hcall =>
    have herror : R x (.error e) := by simpa [← hgraph, hcall] using hcaller x s
    refine ⟨hgraph, by simpa using hpoints, hentries, ?_, ?_, ?_⟩ <;> grind
  | kept =>
    have hvalue := hcalled _ _ (List.mem_append_right _ List.mem_cons_self)
    refine ⟨hgraph, by simpa using hpoints, hentries.keep hvalue, ?_, ?_, ?_⟩ <;> grind [mem_keep]

theorem lawful_start (hentries : Entries R c) (xs : List Float) (s : σ) : Lawful R c xs (c.start xs s) := by
  refine ⟨rfl, by simp [SampleCache.start, Function.comp_def], hentries, ?_, ?_, ?_⟩ <;> simp [SampleCache.start]

/-- **Results and entries obey the law**, whatever the schedule: there is one result for each point, in order, and the
keys of the cache grow by the bit patterns of the points that succeed. -/
theorem sweep_law (hcaller : ∀ x s, R x (caller c.graph x s).1) (hentries : Entries R c) (schedule : List Nat)
    (xs : List Float) (s : σ) :
    (c.sweep caller schedule xs s).1.map Prod.fst = xs ∧ (∀ p ∈ (c.sweep caller schedule xs s).1, R p.1 p.2) ∧
      (c.sweep caller schedule xs s).2.1.graph = c.graph ∧ Entries R (c.sweep caller schedule xs s).2.1 ∧
      ∀ bits, bits ∈ (c.sweep caller schedule xs s).2.1.points ↔
        bits ∈ c.points ∨ ∃ x v, (x, Except.ok v) ∈ (c.sweep caller schedule xs s).1 ∧ x.toBits = bits := by
  obtain ⟨hgraph, hpoints, hlast, -, hdone, hkey⟩ :=
    sweep_keeps caller (lawful_step hcaller) (lawful_start hentries xs s) schedule
  have hmem : ∀ x r, (x, Stage.done r) ∈ (ended (c.sweep caller schedule xs s)).tasks ↔
      (x, r) ∈ (c.sweep caller schedule xs s).1 := by
    simp [ended]
  simp only [hmem] at hdone hkey
  refine ⟨by simpa [ended, Function.comp_def] using hpoints, fun p hp => hdone p.1 p.2 hp, hgraph, hlast, hkey⟩

/-- Without a schedule the points are taken in turn. -/
theorem sweep_cons (caller : Caller σ) (c : SampleCache) (x : Float) (xs : List Float) (s : σ) :
    c.sweep caller [] (x :: xs) s =
      ((x, (c.get caller x s).1) :: ((c.get caller x s).2.1.sweep caller [] xs (c.get caller x s).2.2).1,
        ((c.get caller x s).2.1.sweep caller [] xs (c.get caller x s).2.2).2) := rfl

/-- A value that is asked for alone is a sweep of one point. -/
theorem sweep_single (caller : Caller σ) (c : SampleCache) (x : Float) (s : σ) :
    c.sweep caller [] [x] s = ([(x, (c.get caller x s).1)], (c.get caller x s).2) := rfl

end Laws

/-! ## Noting calls -/

/-- a call: the identity of the callable, and the bit pattern of the number -/
abbrev Call := Nat × UInt64

/-- the call of the graph with a number -/
def callAt (g : Graph) (x : Float) : Call := (g.id, x.toBits)

section Noting

variable {σ : Type} (caller : Caller σ)

/-- a caller that also notes its calls, in order -/
def noting : Caller (σ × List Call) := fun g x s =>
  ((caller g x s.1).1, (caller g x s.1).2, s.2 ++ [callAt g x])

/-- an outcome without the notes -/
def unnoted {α β : Type} (r : α × β × σ × List Call) : α × β × σ := (r.1, r.2.1, r.2.2.1)

/-- a sweep without the notes -/
def unnotedSweep (w : Sweep (σ × List Call)) : Sweep σ := ⟨w.cache, w.tasks, w.state.1⟩

theorem step_noting (c : SampleCache) (x : Float) (s : σ × List Call) (stage : Stage) :
    unnoted (c.step (noting caller) x s stage) = c.step caller x s.1 stage := by
  cases stage with
  | waiting =>
    simp only [SampleCache.step]
    cases c.points[x.toBits]? <;> rfl
  | missed =>
    simp only [SampleCache.step, noting]
    rcases caller c.graph x s.1 with ⟨e | v, s'⟩ <;> rfl
  | called v => rfl
  | done r => rfl

theorem finish_noting (c : SampleCache) (x : Float) (s : σ × List Call) (stage : Stage) :
    unnoted (c.finish (noting caller) x s stage) = c.finish caller x s.1 stage := by
  have hcompute : unnoted (c.compute (noting caller) x s) = c.compute caller x s.1 := by
    simp only [SampleCache.compute, noting]
    rcases caller c.graph x s.1 with ⟨e | v, s'⟩ <;> rfl
  cases stage with
  | waiting =>
    simp only [SampleCache.finish, SampleCache.get]
    cases c.points[x.toBits]? with
    | some v => rfl
    | none => exact hcompute
  | missed => exact hcompute
  | called v => rfl
  | done r => rfl

theorem advance_noting (w : Sweep (σ × List Call)) (k : Nat) :
    unnotedSweep (w.advance (noting caller) k) = (unnotedSweep w).advance caller k := by
  unfold Sweep.advance
  simp only [unnotedSweep]
  cases w.tasks[k]? with
  | none => rfl
  | some task =>
    simp only [← step_noting, unnoted]

theorem follow_noting (w : Sweep (σ × List Call)) (schedule : List Nat) :
    unnotedSweep (w.follow (noting caller) schedule) = (unnotedSweep w).follow caller schedule := by
  induction schedule generalizing w with
  | nil => rfl
  | cons k schedule ih => exact (ih _).trans (congrArg (Sweep.follow caller · schedule) (advance_noting caller w k))

theorem finishAll_noting (c : SampleCache) (s : σ × List Call) (tasks : List (Float × Stage)) :
    unnoted (c.finishAll (noting caller) s tasks) = c.finishAll caller s.1 tasks := by
  induction tasks generalizing c s with
  | nil => rfl
  | cons task tasks ih =>
    have hfirst := finish_noting caller c task.1 s task.2
    have hrest := ih (c.finish (noting caller) task.1 s task.2).2.1 (c.finish (noting caller) task.1 s task.2).2.2
    simp only [SampleCache.finishAll, ← hfirst]
    simp only [unnoted] at hrest ⊢
    rw [← hrest]

/-- **Noting changes nothing else.** -/
theorem sweep_noting (c : SampleCache) (schedule : List Nat) (xs : List Float) (s : σ × List Call) :
    unnoted (c.sweep (noting caller) schedule xs s) = c.sweep caller schedule xs s.1 := by
  have hfollow : unnotedSweep ((c.start xs s).follow (noting caller) schedule) = (c.start xs s.1).follow caller schedule :=
    follow_noting caller (c.start xs s) schedule
  simp only [SampleCache.sweep, finishAll_noting, ← hfollow, unnotedSweep]

theorem get_noting (c : SampleCache) (x : Float) (s : σ × List Call) :
    unnoted (c.get (noting caller) x s) = c.get caller x s.1 := finish_noting caller c x s .waiting

theorem sample_noting (c : SampleCache) (range : SampleRange) (schedule : List Nat) (s : σ × List Call) :
    unnoted (c.sample (noting caller) range schedule s) = c.sample caller range schedule s.1 := by
  simp only [SampleCache.sample, ← sweep_noting, unnoted]

end Noting

/-! ## The calls of a sweep -/

section Calls

variable {σ : Type} {caller : Caller σ} {g : Graph} {c : SampleCache}

/-- the work on the point may still come to a call -/
def isOpen : Stage → Bool
  | .waiting | .missed => true
  | .called _ | .done _ => false

/-- the calls that a sweep may still come to, of those for points with the property `p` -/
def pending (g : Graph) (p : Float → Bool) (tasks : List (Float × Stage)) : List Call :=
  (tasks.filter fun t => isOpen t.2 && p t.1).map fun t => callAt g t.1

theorem pending_append (p : Float → Bool) (front back : List (Float × Stage)) :
    pending g p (front ++ back) = pending g p front ++ pending g p back := by
  rw [pending, List.filter_append, List.map_append]
  rfl

theorem pending_cons (p : Float → Bool) (x : Float) (stage : Stage) (back : List (Float × Stage)) :
    pending g p ((x, stage) :: back) = (if isOpen stage && p x then [callAt g x] else []) ++ pending g p back := by
  rw [pending, List.filter_cons]
  split <;> rfl

theorem pending_ended (p : Float → Bool) (r : List (Float × Except EvalError Value) × SampleCache × σ) :
    pending g p (ended r).tasks = [] := by
  unfold pending ended
  rw [List.filter_map, List.filter_eq_nil_iff.2 (by simp [isOpen])]
  rfl

theorem pending_start (p : Float → Bool) (c : SampleCache) (xs : List Float) (s : σ) :
    pending g p (c.start xs s).tasks = (xs.filter p).map (callAt g) := by
  unfold pending SampleCache.start
  rw [List.filter_map, List.map_map]
  simp [isOpen, Function.comp_def]

theorem noting_log {caller : Caller σ} {x : Float} {s s' : σ × List Call} {r : Except EvalError Value}
    (h : noting caller g x s = (r, s')) : s'.2 = s.2 ++ [callAt g x] := congrArg (fun p => p.2.2) h.symm

/-- Calls that were noted stay noted. -/
theorem sweep_log (caller : Caller σ) (c : SampleCache) (schedule : List Nat) (xs : List Float) (s : σ × List Call) :
    s.2 <+: (c.sweep (noting caller) schedule xs s).2.2.2 := by
  have hstep : ∀ {w w' : Sweep (σ × List Call)}, Advances (noting caller) w w' → s.2 <+: w.state.2 →
      s.2 <+: w'.state.2 := by
    intro w w' hw hlog
    cases hw with
    | called hcall => exact hlog.trans (noting_log hcall ▸ List.prefix_append _ _)
    | failed hcall => exact hlog.trans (noting_log hcall ▸ List.prefix_append _ _)
    | _ => exact hlog
  have hstart : s.2 <+: (c.start xs s).state.2 := List.prefix_refl s.2
  exact sweep_keeps (noting caller) hstep hstart schedule

/-- A call that is made is no longer pending. -/
theorem called_perm (log front back : List Call) (k : Call) :
    (log ++ [k] ++ (front ++ back)).Perm (log ++ (front ++ k :: back)) := by
  rw [List.append_assoc, List.singleton_append]
  exact List.perm_middle.symm.append_left log

/-- The calls that were made and those that are pending are among `most`. -/
structure Within (g : Graph) (most : List Call) (w : Sweep (σ × List Call)) : Prop where
  graph : w.cache.graph = g
  calls : (w.state.2 ++ pending g (fun _ => true) w.tasks).Subperm most

theorem within_step {caller : Caller σ} {most : List Call} {w w' : Sweep (σ × List Call)}
    (hw : Advances (noting caller) w w') (h : Within g most w) : Within g most w' := by
  obtain ⟨rfl, hcalls⟩ := h
  refine ⟨by cases hw <;> rfl, List.Subperm.trans ?_ hcalls⟩
  cases hw with
  | found _ =>
    simp only [pending_append, pending_cons, isOpen]
    exact (((List.sublist_append_right _ _).append_left _).append_left _).subperm
  | missed _ =>
    simp only [pending_append, pending_cons, isOpen]
    exact .refl _
  | called hcall =>
    simp only [pending_append, pending_cons, isOpen, noting_log hcall]
    exact (called_perm _ _ _ _).subperm
  | failed hcall =>
    simp only [pending_append, pending_cons, isOpen, noting_log hcall]
    exact (called_perm _ _ _ _).subperm
  | kept =>
    simp only [pending_append, pending_cons, isOpen]
    exact .refl _

/-- **The calls of a sweep** are among those of its points: as many of one number at most as there are points of that
number. -/
theorem sweep_calls (caller : Caller σ) (c : SampleCache) (schedule : List Nat) (xs : List Float)
    (s : σ × List Call) :
    (c.sweep (noting caller) schedule xs s).2.2.2.Subperm (s.2 ++ xs.map (callAt c.graph)) := by
  have hstart : Within c.graph (s.2 ++ xs.map (callAt c.graph)) (c.start xs s) := by
    refine ⟨rfl, ?_⟩
    rw [pending_start, List.filter_true]
    exact .refl _
  have hlast := (sweep_keeps (noting caller) within_step hstart schedule).calls
  rwa [pending_ended, List.append_nil] at hlast

/-- There is an entry for the bit pattern, and no more calls are made with it. -/
structure Quiet (g : Graph) (bits : UInt64) (n : Nat) (w : Sweep (σ × List Call)) : Prop where
  graph : w.cache.graph = g
  entry : bits ∈ w.cache.points
  missed : ∀ x, (x, Stage.missed) ∈ w.tasks → x.toBits ≠ bits
  count : w.state.2.count (g.id, bits) = n

theorem quiet_call {bits : UInt64} {n : Nat} {x : Float} {s s' : σ × List Call} {r : Except EvalError Value}
    (hne : x.toBits ≠ bits) (hcount : s.2.count (g.id, bits) = n) (hcall : noting caller g x s = (r, s')) :
    s'.2.count (g.id, bits) = n := by
  have hother : callAt g x ≠ (g.id, bits) := fun heq => hne (congrArg Prod.snd heq)
  rw [noting_log hcall, List.count_append, hcount, List.count_singleton, beq_false_of_ne hother]
  rfl

theorem quiet_step {bits : UInt64} {n : Nat} {w w' : Sweep (σ × List Call)} (hw : Advances (noting caller) w w')
    (h : Quiet g bits n w) : Quiet g bits n w' := by
  obtain ⟨rfl, hentry, hmissed, hcount⟩ := h
  cases hw with
  | found _ => exact ⟨rfl, hentry, by grind, hcount⟩
  | @missed c _ _ _ x hnone =>
    have hne : x.toBits ≠ bits := by
      rintro rfl
      rw [HashMap.mem_iff_isSome_getElem?, hnone] at hentry
      cases hentry
    exact ⟨rfl, hentry, by grind, hcount⟩
  | called hcall => exact ⟨rfl, hentry, by grind, quiet_call (hmissed _ (by simp)) hcount hcall⟩
  | failed hcall => exact ⟨rfl, hentry, by grind, quiet_call (hmissed _ (by simp)) hcount hcall⟩
  | kept => exact ⟨rfl, mem_keep.2 (Or.inr hentry), by grind, hcount⟩

/-- **Where there is an entry**, a sweep does not call the graph. -/
theorem sweep_known (caller : Caller σ) {bits : UInt64} (hentry : bits ∈ c.points) (schedule : List Nat)
    (xs : List Float) (s : σ × List Call) :
    (c.sweep (noting caller) schedule xs s).2.2.2.count (c.graph.id, bits) = s.2.count (c.graph.id, bits) := by
  have hstart : Quiet c.graph bits (s.2.count (c.graph.id, bits)) (c.start xs s) :=
    ⟨rfl, hentry, by simp [SampleCache.start], rfl⟩
  exact (sweep_keeps (noting caller) quiet_step hstart schedule).count

/-- A sweep of points that are known or fail: the cache is as it was, and of the calls for points that fail those that
were made and those that are pending are `all`. -/
structure Settled (fails : Float → Bool) (c : SampleCache) (id : σ) (all : List Call) (w : Sweep (σ × List Call)) :
    Prop where
  cache : w.cache = c
  state : w.state.1 = id
  calls : (w.state.2 ++ pending c.graph fails w.tasks).Perm all
  known : ∀ x stage, (x, stage) ∈ w.tasks → (x.toBits ∈ c.points ↔ fails x = false)
  called : ∀ x v, (x, Stage.called v) ∉ w.tasks
  missed : ∀ x, (x, Stage.missed) ∈ w.tasks → fails x = true

theorem settled_step {fails : Float → Bool} {id : σ} {all : List Call}
    (hfails : ∀ x s, fails x = true → ∃ e, caller c.graph x s = (.error e, s)) {w w' : Sweep (σ × List Call)}
    (hw : Advances (noting caller) w w') (h : Settled fails c id all w) : Settled fails c id all w' := by
  obtain ⟨rfl, rfl, hcalls, hknown, hcalled, hmissed⟩ := h
  cases hw with
  | @found c _ _ _ x _ hfound =>
    have hmem := HashMap.mem_iff_isSome_getElem?.2 (Option.isSome_iff_exists.2 ⟨_, hfound⟩)
    have hsucceeds : fails x = false := (hknown x .waiting (by simp)).1 hmem
    refine ⟨rfl, rfl, ?_, by grind, by grind, by grind⟩
    simp only [pending_append, pending_cons, isOpen, hsucceeds, Bool.and_false] at hcalls ⊢
    exact hcalls
  | @missed c _ _ _ x hnone =>
    have hfail : fails x = true := by
      rw [← Bool.not_eq_false, ← hknown x .waiting (by simp), HashMap.mem_iff_isSome_getElem?, hnone]
      exact Bool.false_ne_true
    refine ⟨rfl, rfl, ?_, by grind, by grind, by grind⟩
    simp only [pending_append, pending_cons, isOpen] at hcalls ⊢
    exact hcalls
  | @called c s s' _ _ x v hcall =>
    obtain ⟨e, he⟩ := hfails x s.1 (hmissed x (by simp))
    rw [noting, he] at hcall
    cases hcall
  | @failed c s s' _ _ x e hcall =>
    have hfail := hmissed x (by simp)
    obtain ⟨e', he⟩ := hfails x s.1 hfail
    rw [noting, he] at hcall
    cases hcall
    refine ⟨rfl, rfl, ?_, by grind, by grind, by grind⟩
    simp only [pending_append, pending_cons, isOpen, hfail] at hcalls ⊢
    exact (called_perm _ _ _ _).trans hcalls
  | kept => exact absurd (List.mem_append_right _ List.mem_cons_self) (hcalled _ _)

/-- **A sweep over points that are known or fail** leaves the cache as it is, and calls the graph once for each point at
which it fails, and for no other. -/
theorem sweep_settled {fails : Float → Bool} (hfails : ∀ x s, fails x = true → ∃ e, caller c.graph x s = (.error e, s))
    {xs : List Float} (hknown : ∀ x ∈ xs, x.toBits ∈ c.points ↔ fails x = false) (schedule : List Nat)
    (s : σ × List Call) :
    (c.sweep (noting caller) schedule xs s).2.1 = c ∧ (c.sweep (noting caller) schedule xs s).2.2.1 = s.1 ∧
      (c.sweep (noting caller) schedule xs s).2.2.2.Perm (s.2 ++ (xs.filter fails).map (callAt c.graph)) := by
  have hstart : Settled fails c s.1 (s.2 ++ (xs.filter fails).map (callAt c.graph)) (c.start xs s) := by
    refine ⟨rfl, rfl, by rw [pending_start]; exact .refl _, ?_, ?_, ?_⟩ <;> simp [SampleCache.start]
    exact hknown
  obtain ⟨hcache, hid, hcalls, -⟩ := sweep_keeps (noting caller) (settled_step hfails) hstart schedule
  rw [pending_ended, List.append_nil] at hcalls
  exact ⟨hcache, hid, hcalls⟩

/-- One point that is known or fails. -/
theorem get_settled {fails : Float → Bool} (hfails : ∀ x s, fails x = true → ∃ e, caller c.graph x s = (.error e, s))
    {x : Float} (hknown : x.toBits ∈ c.points ↔ fails x = false) (s : σ × List Call) :
    (c.get (noting caller) x s).2 = (c, s.1, s.2 ++ ([x].filter fails).map (callAt c.graph)) := by
  rw [HashMap.mem_iff_isSome_getElem?] at hknown
  rw [SampleCache.get]
  cases hentry : c.points[x.toBits]? with
  | some v =>
    rw [hentry] at hknown
    have hsucceeds : fails x = false := hknown.1 rfl
    simp [hsucceeds]
  | none =>
    rw [hentry] at hknown
    have hfail : fails x = true := by simpa using hknown
    obtain ⟨e, he⟩ := hfails x s.1 hfail
    simp [SampleCache.compute, noting, he, hfail]

/-- In turn, such points are called in order. -/
theorem turns_settled {fails : Float → Bool} (hfails : ∀ x s, fails x = true → ∃ e, caller c.graph x s = (.error e, s))
    {xs : List Float} (hknown : ∀ x ∈ xs, x.toBits ∈ c.points ↔ fails x = false) (s : σ × List Call) :
    (c.sweep (noting caller) [] xs s).2.2.2 = s.2 ++ (xs.filter fails).map (callAt c.graph) := by
  induction xs generalizing s with
  | nil => simp [SampleCache.sweep, SampleCache.start, Sweep.follow, SampleCache.finishAll]
  | cons x xs ih =>
    obtain ⟨hx, hxs⟩ := List.forall_mem_cons.1 hknown
    rw [sweep_cons, get_settled hfails hx]
    simp only [ih hxs, List.append_assoc, ← List.map_append, ← List.filter_append, List.singleton_append]

/-! ## Races -/

/-- Points without entries that are all looked up before anything else have all missed. -/
theorem follow_race (caller : Caller σ) {s : σ} {xs : List Float} (hnone : ∀ x ∈ xs, c.points[x.toBits]? = none)
    (front : List (Float × Stage)) :
    (Sweep.mk c (front ++ xs.map fun x => (x, .waiting)) s).follow caller (List.range' front.length xs.length) =
      ⟨c, front ++ xs.map fun x => (x, .missed), s⟩ := by
  induction xs generalizing front with
  | nil => rfl
  | cons x xs ih =>
    obtain ⟨hx, hxs⟩ := List.forall_mem_cons.1 hnone
    have hrest := ih hxs (front ++ [(x, .missed)])
    rw [List.length_append, List.length_singleton] at hrest
    rw [List.length_cons, List.range'_succ, Sweep.follow, List.foldl_cons, List.map_cons, advance_at]
    simp only [SampleCache.step, hx]
    simpa [Sweep.follow] using hrest

/-- All points that have missed are called. -/
theorem finishAll_missed (caller : Caller σ) (c : SampleCache) (xs : List Float) (s : σ × List Call) :
    (c.finishAll (noting caller) s (xs.map fun x => (x, .missed))).2.2.2 = s.2 ++ xs.map (callAt c.graph) := by
  induction xs generalizing c s with
  | nil => simp [SampleCache.finishAll]
  | cons x xs ih =>
    simp only [List.map_cons, SampleCache.finishAll, SampleCache.finish, ih, SampleCache.compute, noting]
    rcases caller c.graph x s.1 with ⟨e | v, s'⟩ <;> simp [SampleCache.keep]

/-- **A race**: points without entries, of which each is looked up before any is called, are all called, the same number
as often as it is there. -/
theorem sweep_race (caller : Caller σ) {xs : List Float} (hnone : ∀ x ∈ xs, c.points[x.toBits]? = none)
    (s : σ × List Call) :
    (c.sweep (noting caller) (List.range xs.length) xs s).2.2.2 = s.2 ++ xs.map (callAt c.graph) := by
  have hmissed := follow_race (noting caller) (s := s) hnone []
  rw [List.length_nil, ← List.range_eq_range', List.nil_append, List.nil_append] at hmissed
  rw [SampleCache.sweep, SampleCache.start, hmissed]
  exact finishAll_missed caller c xs s

end Calls

end CurveScript.Schedules
