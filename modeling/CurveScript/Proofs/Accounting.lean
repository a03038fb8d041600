/-
The account of a pass of the plugin loader.

A candidate can fail when it is opened, when it is asked for its name or for its functions, and when these are described
one after the other. Whatever happens, the pass goes on with the next candidate, and its report says what became of
each. `fault?` and `turns` say it without a registry in the making: the first thing that goes wrong with a candidate,
and the functions of a plugin in turn, each with who holds its name by then.

Results:
- `addAll_described`, `addAll_crashed`: staging the functions of a plugin. The induction is on the functions; what
  carries it is that the staged registry knows the holder of every name.
- `tryCandidate_settled`, `tryAll_settled`: one candidate and all of them. Candidate `k` is settled over the plugins
  that were loaded from the candidates before it.
- `tryAll_alike`: the trials of two registries with the same entries are the same.
- `loading_accounted`: the account as a whole, and what loading again leaves of an earlier pass.
-/
import CurveScript.Proofs.FreeNames

namespace CurveScript.Accounting

open CurveScript.Plugin

/-! ## Faults -/

/-- the crash of the first function whose description cannot be read -/
def describingCrash? (fs : List ModuleFunction) : Option Crash :=
  fs.findSome? fun f =>
    match f.info with
    | .error p => some p
    | .ok _ => none

/-- the first thing that goes wrong with a candidate -/
def fault? : Opening → Option PluginError
  | .error p => some (.crashed p.text)
  | .ok (.error e) => some e
  | .ok (.ok m) =>
    match m.name, m.functions with
    | .error p, _ => some (.crashed p.text)
    | .ok _, .error p => some (.crashed p.text)
    | .ok _, .ok fs => (describingCrash? fs).map fun p => .crashed p.text

/-- the names of functions, as far as they can be described -/
def names (fs : List ModuleFunction) : List String :=
  fs.filterMap fun f =>
    match f.info with
    | .error _ => none
    | .ok info => some info.name

/-- whether the function is described under the name -/
def isNamed (name : String) (f : ModuleFunction) : Bool :=
  match f.info with
  | .error _ => false
  | .ok info => info.name == name

/-! ## Holders -/

/-- who holds a name: who held it at first, or else the earliest of the plugins that were loaded with it -/
def holder? (base : Registry) (loaded : List Loaded) (name : String) : Option Source :=
  match base.source? name with
  | some s => some s
  | none => (loaded.find? fun l => name ∈ l.functions).map fun l => .plugin l.name

/-- The names of a plugin's functions in turn, each with who holds it by then: the registry at first, a plugin that was
loaded before, or an earlier function of the same plugin. -/
def turns (base : Registry) (before : List Loaded) (plugin path : String) (earlier : List String) :
    List String → List (String × Option Source)
  | [] => []
  | name :: rest =>
    (name, holder? base (before ++ [⟨plugin, path, earlier⟩]) name) ::
      turns base before plugin path (earlier ++ [name]) rest

/-- the names that nobody held -/
def granted (ts : List (String × Option Source)) : List String :=
  ts.filterMap fun t =>
    match t.2 with
    | none => some t.1
    | some _ => none

/-- the conflicts over the names that somebody held -/
def refused (plugin path : String) (ts : List (String × Option Source)) : List Conflict :=
  ts.filterMap fun t => t.2.map fun s => ⟨t.1, plugin, path, s⟩

theorem holder?_concat (base : Registry) (before : List Loaded) (l : Loaded) (x : String) :
    holder? base (before ++ [l]) x =
      match holder? base before x with
      | some s => some s
      | none => if x ∈ l.functions then some (.plugin l.name) else none := by
  unfold holder?
  cases base.source? x with
  | some s => rfl
  | none =>
    simp only [List.find?_append]
    cases before.find? fun l => x ∈ l.functions with
    | some l' => rfl
    | none =>
      by_cases hx : x ∈ l.functions
      · simp [hx]
      · simp [hx]

section Turns

variable (base : Registry) (before : List Loaded) (plugin path : String)

/-- the holder of a name after the functions `earlier` of a plugin -/
theorem holder?_own (earlier : List String) (x : String) :
    holder? base (before ++ [⟨plugin, path, earlier⟩]) x =
      match holder? base before x with
      | some s => some s
      | none => if x ∈ earlier then some (.plugin plugin) else none :=
  holder?_concat base before ⟨plugin, path, earlier⟩ x

/-- A name that comes up is held from then on, by who held it or else by the plugin. -/
theorem holder?_after (earlier : List String) (name x : String) :
    holder? base (before ++ [⟨plugin, path, earlier ++ [name]⟩]) x =
      match holder? base (before ++ [⟨plugin, path, earlier⟩]) x with
      | some s => some s
      | none => if x = name then some (.plugin plugin) else none := by
  rw [holder?_own, holder?_own]
  cases holder? base before x with
  | some s => rfl
  | none => by_cases hearlier : x ∈ earlier <;> simp [hearlier]

/-- The names that are granted are those that nobody held when the plugin came up. -/
theorem mem_granted (earlier ns : List String) (x : String) :
    x ∈ granted (turns base before plugin path earlier ns) ↔ x ∈ ns ∧ x ∉ earlier ∧ holder? base before x = none := by
  induction ns generalizing earlier with
  | nil => simp [turns, granted]
  | cons n ns ih =>
    have hrest := ih (earlier ++ [n])
    have hown := holder?_own base before plugin path earlier n
    simp only [granted, turns, List.filterMap_cons] at hrest ⊢
    rw [hown]
    cases hn : holder? base before n with
    | some s =>
      simp only [hrest]
      by_cases hx : x = n
      · subst hx; simp [hn]
      · simp [hx]
    | none =>
      by_cases hearlier : n ∈ earlier
      · simp only [hearlier, if_true, hrest]
        by_cases hx : x = n
        · subst hx; simp [hearlier]
        · simp [hx]
      · simp only [hearlier, if_false, List.mem_cons, hrest]
        by_cases hx : x = n
        · subst hx; simp [hearlier, hn]
        · simp [hx]

/-- **Nothing is lost and nothing counts twice.** The names that are granted and those that are refused are the names of
the plugin's functions, each kind in the order of the list. -/
theorem turns_divide (earlier ns : List String) :
    let ts := turns base before plugin path earlier ns
    (granted ts).Sublist ns ∧ ((refused plugin path ts).map Conflict.function).Sublist ns ∧
      (granted ts ++ (refused plugin path ts).map Conflict.function).Perm ns := by
  induction ns generalizing earlier with
  | nil => simp [turns, granted, refused]
  | cons n ns ih =>
    obtain ⟨hgranted, hrefused, hperm⟩ := ih (earlier ++ [n])
    simp only [turns, granted, refused, List.filterMap_cons] at hgranted hrefused hperm ⊢
    cases holder? base (before ++ [⟨plugin, path, earlier⟩]) n with
    | some s =>
      simp only [Option.map_some, List.map_cons]
      refine ⟨hgranted.cons n, hrefused.cons_cons n, ?_⟩
      exact List.perm_middle.trans (hperm.cons n)
    | none =>
      simp only [Option.map_none, List.cons_append]
      exact ⟨hgranted.cons_cons n, hrefused.cons n, hperm.cons n⟩

end Turns

/-! ## Staging -/

theorem source?_eq {r : Registry} {x : String} : r.source? x = (r.get? x).map Registered.source := rfl

theorem add_free (plugin path : String) (call : NativeCall) {s : Staged} {info : FunctionInfo}
    (h : s.registry.get? info.name = none) :
    ∃ r, s.registry.register info.name info call (.plugin plugin) s.nextId = .ok r ∧
      s.add plugin path info call = ⟨r, s.nextId + 1, s.registered ++ [info.name], s.dropped⟩ := by
  unfold Staged.add
  cases hregister : s.registry.register info.name info call (.plugin plugin) s.nextId with
  | ok r => exact ⟨r, rfl, rfl⟩
  | error e => rw [Registry.register, h] at hregister; cases hregister

theorem add_taken {s : Staged} {plugin path : String} {info : FunctionInfo} {call : NativeCall} {entry : Registered}
    (h : s.registry.get? info.name = some entry) :
    s.add plugin path info call = { s with dropped := s.dropped ++ [⟨info.name, plugin, path, entry.source⟩] } := by
  rw [Staged.add, Registry.register, h]

/-- What stands under a name after the functions of a plugin: what stood there, or else the first function of the name
with an identity that was not in use. -/
inductive Stands (plugin : String) (fs : List ModuleFunction) (x : String) (low high : Nat) :
    Option Registered → Option Registered → Prop where
  | kept (entry : Registered) : Stands plugin fs x low high (some entry) (some entry)
  | free (h : fs.find? (isNamed x) = none) : Stands plugin fs x low high none none
  | added {f : ModuleFunction} {info : FunctionInfo} {id : Nat} (hf : fs.find? (isNamed x) = some f)
      (hinfo : f.info = .ok info) (hlow : low ≤ id) (hhigh : id < high) :
      Stands plugin fs x low high none (some (Registry.entry x info f.call (.plugin plugin) id))

theorem addAll_crashed (plugin path : String) {fs : List ModuleFunction} {p : Crash}
    (hfs : describingCrash? fs = some p) (s : Staged) : ∃ s', s.addAll plugin path fs = (s', some p) := by
  induction fs generalizing s with
  | nil => cases hfs
  | cons f fs ih =>
    simp only [describingCrash?, List.findSome?_cons] at hfs
    unfold Staged.addAll
    cases hinfo : f.info with
    | error q => rw [hinfo] at hfs; cases hfs; exact ⟨s, rfl⟩
    | ok info => rw [hinfo] at hfs; exact ih hfs _

section Staging

variable {base : Registry} {before : List Loaded} {plugin path : String} {earlier : List String}

/-- the registry knows the holder of every name, where the functions `earlier` of a plugin have come up so far -/
def Knows (base : Registry) (before : List Loaded) (plugin path : String) (earlier : List String) (r : Registry) :
    Prop :=
  ∀ x, r.source? x = holder? base (before ++ [⟨plugin, path, earlier⟩]) x

/-- A name that was taken has the same holder after it came up. -/
theorem knows_taken {r : Registry} (h : Knows base before plugin path earlier r) {name : String} {entry : Registered}
    (hget : r.get? name = some entry) : Knows base before plugin path (earlier ++ [name]) r := by
  intro x
  rw [holder?_after, ← h x]
  cases hx : r.source? x with
  | some _ => rfl
  | none =>
    have hne : x ≠ name := by
      rintro rfl
      rw [source?_eq, hget] at hx
      cases hx
    simp [hne]

/-- A name that was free is held by the plugin after it came up. -/
theorem knows_granted {r r' : Registry} (h : Knows base before plugin path earlier r) {info : FunctionInfo}
    {call : NativeCall} {id : Nat} (hr : r.register info.name info call (.plugin plugin) id = .ok r') :
    Knows base before plugin path (earlier ++ [info.name]) r' := by
  obtain ⟨hget, -, hentries⟩ := Invariants.register_eq_ok hr
  intro x
  rw [holder?_after, ← h x, source?_eq, source?_eq, hentries]
  by_cases hname : x = info.name
  · subst hname
    simp [hget, Registry.entry]
  · cases r.get? x <;> simp [hname]

variable {f : ModuleFunction} {fs : List ModuleFunction} {info : FunctionInfo} {x : String} {low high : Nat}
  {a b : Option Registered}

theorem find?_named (hinfo : f.info = .ok info) (hne : x ≠ info.name) :
    (f :: fs).find? (isNamed x) = fs.find? (isNamed x) := by
  have hnamed : isNamed x f = false := by
    simp only [isNamed, hinfo]
    exact beq_false_of_ne (Ne.symm hne)
  rw [List.find?_cons, hnamed]

/-- A function whose name was taken adds nothing. -/
theorem Stands.taken (h : Stands plugin fs x low high a b) (hinfo : f.info = .ok info)
    (htaken : x = info.name → a ≠ none) : Stands plugin (f :: fs) x low high a b := by
  cases h with
  | kept entry => exact .kept entry
  | free h =>
    have hne : x ≠ info.name := fun heq => htaken heq rfl
    exact .free ((find?_named hinfo hne).trans h)
  | added hf hinfo' hlow hhigh =>
    have hne : x ≠ info.name := fun heq => htaken heq rfl
    exact .added ((find?_named hinfo hne).trans hf) hinfo' hlow hhigh

/-- A function whose name was free stands under it from then on. -/
theorem Stands.granted (h : Stands plugin fs x (low + 1) high
      (if x = info.name then some (Registry.entry info.name info f.call (.plugin plugin) low) else a) b)
    (hinfo : f.info = .ok info) (hfree : x = info.name → a = none) (hlow : low < high) :
    Stands plugin (f :: fs) x low high a b := by
  by_cases hname : x = info.name
  · rw [if_pos hname] at h
    rw [hfree hname]
    subst hname
    cases h with
    | kept =>
      refine .added ?_ hinfo (Nat.le_refl _) hlow
      rw [List.find?_cons]
      simp [isNamed, hinfo]
  · rw [if_neg hname] at h
    cases h with
    | kept entry => exact .kept entry
    | free h => exact .free ((find?_named hinfo hname).trans h)
    | added hf hinfo' hlow' hhigh =>
      exact .added ((find?_named hinfo hname).trans hf) hinfo' (Nat.le_of_succ_le hlow') hhigh

/-- **Staging.** The functions that take their names are those that are granted them, the others are dropped with the
holders of their names, and nothing else changes. -/
theorem addAll_described (hfs : describingCrash? fs = none) {s : Staged}
    (hs : Knows base before plugin path earlier s.registry) :
    let ts := turns base before plugin path earlier (names fs)
    ∃ s', s.addAll plugin path fs = (s', none) ∧ s'.registered = s.registered ++ granted ts ∧
      s'.dropped = s.dropped ++ refused plugin path ts ∧ s.nextId ≤ s'.nextId ∧
      Knows base before plugin path (earlier ++ names fs) s'.registry ∧
      ∀ x, Stands plugin fs x s.nextId s'.nextId (s.registry.get? x) (s'.registry.get? x) := by
  induction fs generalizing s earlier with
  | nil =>
    refine ⟨s, rfl, by simp [turns, names, granted], by simp [turns, names, refused], Nat.le_refl _, ?_, fun x => ?_⟩
    · simpa [names] using hs
    · cases s.registry.get? x with
      | some entry => exact .kept entry
      | none => exact .free rfl
  | cons f fs ih =>
    simp only [describingCrash?, List.findSome?_cons] at hfs
    cases hinfo : f.info with
    | error p => rw [hinfo] at hfs; cases hfs
    | ok info =>
      rw [hinfo] at hfs
      have hnames : names (f :: fs) = info.name :: names fs := by simp [names, hinfo]
      have hcons : earlier ++ info.name :: names fs = earlier ++ [info.name] ++ names fs := by simp
      have hnext : s.addAll plugin path (f :: fs) = (s.add plugin path info f.call).addAll plugin path fs := by
        rw [Staged.addAll, hinfo]
      rw [hnames, hnext, turns, hcons, ← hs info.name, source?_eq]
      cases hget : s.registry.get? info.name with
      | some entry =>
        rw [add_taken hget]
        obtain ⟨s', hall, hregistered, hdropped, hid, hknows, hstands⟩ := ih hfs (s := { s with
          dropped := s.dropped ++ [⟨info.name, plugin, path, entry.source⟩] }) (knows_taken hs hget)
        refine ⟨s', hall, by simpa [granted] using hregistered, by simpa [refused] using hdropped, hid, hknows, ?_⟩
        intro x
        refine (hstands x).taken hinfo ?_
        rintro rfl hnone
        rw [hget] at hnone
        cases hnone
      | none =>
        obtain ⟨r, hregister, hadd⟩ := add_free plugin path f.call hget
        rw [hadd]
        obtain ⟨s', hall, hregistered, hdropped, hid, hknows, hstands⟩ := ih hfs (s := ⟨r, s.nextId + 1,
          s.registered ++ [info.name], s.dropped⟩) (knows_granted hs hregister)
        refine ⟨s', hall, by simpa [granted] using hregistered, by simpa [refused] using hdropped,
          Nat.le_of_succ_le hid, hknows, ?_⟩
        intro x
        have hx := hstands x
        rw [(Invariants.register_eq_ok hregister).2.2] at hx
        exact hx.granted hinfo (fun hname => hname ▸ hget) hid

end Staging

/-! ## Candidates -/

/-- What a pass makes of a candidate that comes up after the plugins `before` were loaded. A candidate with a fault is
skipped and changes nothing. Any other is loaded: its functions come up in turn, those whose names nobody holds stand
under their names from then on, and the others are its conflicts. -/
inductive Settled (base : Registry) (before : List Loaded) (path : String) (opening : Opening) (stock : Stock) :
    Trial → Stock → Prop where
  | skipped {e : PluginError} (noticed : List Conflict) (h : fault? opening = some e) :
      Settled base before path opening stock ⟨path, noticed, .skipped e⟩ stock
  | loaded {m : Module} {plugin : String} {fs : List ModuleFunction} {stock' : Stock}
      {ts : List (String × Option Source)} (h : fault? opening = none) (hm : opening = .ok (.ok m))
      (hname : m.name = .ok plugin) (hfs : m.functions = .ok fs)
      (hts : ts = turns base before plugin path [] (names fs))
      (hstands : ∀ x, Stands plugin fs x stock.nextId stock'.nextId (stock.registry.get? x) (stock'.registry.get? x)) :
      Settled base before path opening stock ⟨path, refused plugin path ts, .loaded plugin (granted ts)⟩ stock'

/-- the registry holds every name for who holds it after the plugins `loaded` -/
def Agrees (base : Registry) (loaded : List Loaded) (r : Registry) : Prop := ∀ x, r.source? x = holder? base loaded x

theorem agrees_self (base : Registry) : Agrees base [] base := by
  intro x
  unfold holder?
  cases base.source? x <;> rfl

/-- Nobody holds a name for the first function of a plugin that did not hold it before the plugin. -/
theorem Agrees.knows {base r : Registry} {before : List Loaded} (h : Agrees base before r) (plugin path : String) :
    Knows base before plugin path [] r := by
  intro x
  rw [holder?_own, h x]
  cases holder? base before x <;> rfl

/-- After its last function a plugin holds what it was granted. -/
theorem Knows.agrees {base r : Registry} {before : List Loaded} {plugin path : String} {ns : List String}
    (h : Knows base before plugin path ns r) :
    Agrees base (before ++ [⟨plugin, path, granted (turns base before plugin path [] ns)⟩]) r := by
  intro x
  rw [h x, holder?_own, holder?_own]
  cases hx : holder? base before x with
  | some s => rfl
  | none => simp [mem_granted, hx]

/-- **One candidate** is settled, and the registry agrees with what was loaded so far. -/
theorem tryCandidate_settled {base : Registry} {before : List Loaded} {stock : Stock}
    (h : Agrees base before stock.registry) (path : String) (opening : Opening) :
    Settled base before path opening stock (tryCandidate stock path opening).1 (tryCandidate stock path opening).2 ∧
      Agrees base (before ++ (tryCandidate stock path opening).1.loaded?.toList)
        (tryCandidate stock path opening).2.registry := by
  have hskip : ∀ {e : PluginError} (noticed : List Conflict), fault? opening = some e →
      Settled base before path opening stock ⟨path, noticed, .skipped e⟩ stock ∧
        Agrees base (before ++ (Trial.loaded? ⟨path, noticed, .skipped e⟩).toList) stock.registry := by
    intro e noticed hfault
    refine ⟨.skipped noticed hfault, ?_⟩
    simpa [Trial.loaded?] using h
  match opening with
  | .error p => exact hskip [] rfl
  | .ok (.error e) => exact hskip [] rfl
  | .ok (.ok m) =>
    simp only [tryCandidate]
    unfold tryModule
    cases hname : m.name with
    | error p => exact hskip [] (by simp [fault?, hname])
    | ok plugin =>
      cases hfs : m.functions with
      | error p => exact hskip [] (by simp [fault?, hname, hfs])
      | ok fs =>
        simp only
        cases hcrash : describingCrash? fs with
        | some p =>
          obtain ⟨s', hall⟩ := addAll_crashed plugin path hcrash
            ⟨stock.registry, stock.nextId, [], []⟩
          rw [hall]
          exact hskip s'.dropped (by simp [fault?, hname, hfs, hcrash])
        | none =>
          obtain ⟨s', hall, hregistered, hdropped, -, hknows, hstands⟩ := addAll_described hcrash
            (s := ⟨stock.registry, stock.nextId, [], []⟩) (h.knows plugin path)
          rw [hall]
          simp only [List.nil_append] at hregistered hdropped hknows
          simp only [hregistered, hdropped]
          have hnone : fault? (.ok (.ok m)) = none := by simp [fault?, hname, hfs, hcrash]
          exact ⟨.loaded hnone rfl hname hfs rfl hstands, hknows.agrees⟩

theorem tryAll_cons (stock : Stock) (c : String × Opening) (rest : List (String × Opening)) :
    tryAll stock (c :: rest) = ((tryCandidate stock c.1 c.2).1 :: (tryAll (tryCandidate stock c.1 c.2).2 rest).1,
      (tryAll (tryCandidate stock c.1 c.2).2 rest).2) := rfl

/-- **All candidates.** Candidate `k` is settled over the plugins that were loaded from those before it. -/
theorem tryAll_settled {base : Registry} (candidates : List (String × Opening)) {before : List Loaded} {stock : Stock}
    (h : Agrees base before stock.registry) :
    (∀ k c, candidates[k]? = some c → ∃ t, (tryAll stock candidates).1[k]? = some t ∧
      Settled base (before ++ ((tryAll stock candidates).1.take k).filterMap Trial.loaded?) c.1 c.2
        (tryAll stock (candidates.take k)).2 t (tryAll stock (candidates.take (k + 1))).2) ∧
    Agrees base (before ++ (tryAll stock candidates).1.filterMap Trial.loaded?)
      (tryAll stock candidates).2.registry := by
  induction candidates generalizing before stock with
  | nil => exact ⟨nofun, by simpa [tryAll] using h⟩
  | cons c rest ih =>
    obtain ⟨hfirst, hagrees⟩ := tryCandidate_settled h c.1 c.2
    obtain ⟨hothers, hlast⟩ := ih hagrees
    have happend : ∀ trials : List Trial, before ++ (tryCandidate stock c.1 c.2).1.loaded?.toList ++
        trials.filterMap Trial.loaded? =
          before ++ ((tryCandidate stock c.1 c.2).1 :: trials).filterMap Trial.loaded? := by
      intro trials
      rw [List.append_assoc, List.filterMap_cons]
      cases (tryCandidate stock c.1 c.2).1.loaded? <;> rfl
    rw [tryAll_cons]
    refine ⟨fun k c' hc' => ?_, ?_⟩
    · cases k with
      | zero =>
        cases hc'
        exact ⟨_, rfl, by simpa [tryAll] using hfirst⟩
      | succ k =>
        obtain ⟨t, ht, hsettled⟩ := hothers k c' hc'
        rw [happend] at hsettled
        exact ⟨t, ht, hsettled⟩
    · rw [happend] at hlast
      exact hlast

theorem tryAll_length (candidates : List (String × Opening)) (stock : Stock) :
    (tryAll stock candidates).1.length = candidates.length := by
  induction candidates generalizing stock with
  | nil => rfl
  | cons c rest ih => rw [tryAll_cons, List.length_cons, List.length_cons, ih]

/-- The report lists each candidate once, among the loaded ones if it has no fault and else among the skipped ones. -/
theorem tryAll_reported (candidates : List (String × Opening)) (stock : Stock) :
    (Report.ofTrials (tryAll stock candidates).1).loaded.map Loaded.path =
      (candidates.filter fun c => (fault? c.2).isNone).map Prod.fst ∧
    (Report.ofTrials (tryAll stock candidates).1).skipped =
      candidates.filterMap fun c => (fault? c.2).map fun e => ⟨c.1, e.message⟩ := by
  induction candidates generalizing stock with
  | nil => exact ⟨rfl, rfl⟩
  | cons c rest ih =>
    obtain ⟨hloaded, hskipped⟩ := ih (tryCandidate stock c.1 c.2).2
    obtain ⟨hfirst, -⟩ := tryCandidate_settled (agrees_self stock.registry) c.1 c.2
    simp only [Report.ofTrials] at hloaded hskipped ⊢
    rw [tryAll_cons]
    generalize tryCandidate stock c.1 c.2 = p at hfirst hloaded hskipped ⊢
    obtain ⟨t, stock'⟩ := p
    simp only at hfirst hloaded hskipped
    cases hfirst with
    | skipped noticed hfault =>
      simp only [List.filterMap_cons, Trial.loaded?, Trial.skipped?]
      simp [hfault, hloaded, hskipped]
    | loaded hfault =>
      simp only [List.filterMap_cons, Trial.loaded?, Trial.skipped?]
      simp [hfault, hloaded, hskipped]

/-! ## Loading again -/

/-- an entry without its identity -/
def anonymous (e : Registered) : Registered := { e with value := { e.value with id := 0 } }

/-- two registries have the same constants, and the same functions but for their identities -/
structure SameEntries (r r' : Registry) : Prop where
  constants : r.constants = r'.constants
  functions : ∀ x, (r.get? x).map anonymous = (r'.get? x).map anonymous

theorem SameEntries.refl (r : Registry) : SameEntries r r := ⟨rfl, fun _ => rfl⟩

/-- two staged registries that differ in identities only -/
structure StagedAlike (s s' : Staged) : Prop where
  entries : SameEntries s.registry s'.registry
  registered : s.registered = s'.registered
  dropped : s.dropped = s'.dropped

theorem add_alike {s s' : Staged} (h : StagedAlike s s') (plugin path : String) (info : FunctionInfo)
    (call : NativeCall) :
    StagedAlike (s.add plugin path info call) (s'.add plugin path info call) := by
  have hname := h.entries.functions info.name
  cases hget : s.registry.get? info.name with
  | some entry =>
    cases hget' : s'.registry.get? info.name with
    | none => rw [hget, hget'] at hname; cases hname
    | some entry' =>
      rw [hget, hget'] at hname
      have hsource : entry.source = entry'.source := by
        simp only [Option.map_some, Option.some.injEq] at hname
        have hanonymous := congrArg Registered.source hname
        exact hanonymous
      rw [add_taken hget, add_taken hget', hsource, h.dropped]
      exact ⟨h.entries, h.registered, rfl⟩
  | none =>
    cases hget' : s'.registry.get? info.name with
    | some entry' => rw [hget, hget'] at hname; cases hname
    | none =>
      obtain ⟨r, hr, hadd⟩ := add_free plugin path call hget
      obtain ⟨r', hr', hadd'⟩ := add_free plugin path call hget'
      obtain ⟨-, hconstants, hentries⟩ := Invariants.register_eq_ok hr
      obtain ⟨-, hconstants', hentries'⟩ := Invariants.register_eq_ok hr'
      rw [hadd, hadd', h.registered]
      refine ⟨⟨?_, fun x => ?_⟩, rfl, h.dropped⟩
      · rw [hconstants, hconstants', h.entries.constants]
      · rw [hentries, hentries']
        split
        · rfl
        · exact h.entries.functions x

theorem addAll_alike (plugin path : String) (fs : List ModuleFunction) {s s' : Staged} (h : StagedAlike s s') :
    StagedAlike (s.addAll plugin path fs).1 (s'.addAll plugin path fs).1 ∧
      (s.addAll plugin path fs).2 = (s'.addAll plugin path fs).2 := by
  induction fs generalizing s s' with
  | nil => exact ⟨h, rfl⟩
  | cons f fs ih =>
    unfold Staged.addAll
    cases f.info with
    | error p => exact ⟨h, rfl⟩
    | ok info => exact ih (add_alike h plugin path info f.call)

theorem tryCandidate_alike {stock stock' : Stock} (h : SameEntries stock.registry stock'.registry) (path : String)
    (opening : Opening) :
    (tryCandidate stock path opening).1 = (tryCandidate stock' path opening).1 ∧
      SameEntries (tryCandidate stock path opening).2.registry (tryCandidate stock' path opening).2.registry := by
  match opening with
  | .error p => exact ⟨rfl, h⟩
  | .ok (.error e) => exact ⟨rfl, h⟩
  | .ok (.ok m) =>
    simp only [tryCandidate]
    unfold tryModule
    cases m.name with
    | error p => exact ⟨rfl, h⟩
    | ok plugin =>
      cases m.functions with
      | error p => exact ⟨rfl, h⟩
      | ok fs =>
        simp only
        have hstart : StagedAlike ⟨stock.registry, stock.nextId, [], []⟩ ⟨stock'.registry, stock'.nextId, [], []⟩ :=
          ⟨h, rfl, rfl⟩
        obtain ⟨hstaged, hcrash⟩ := addAll_alike plugin path fs hstart
        generalize Staged.addAll plugin path ⟨stock.registry, stock.nextId, [], []⟩ fs = x at hstaged hcrash
        generalize Staged.addAll plugin path ⟨stock'.registry, stock'.nextId, [], []⟩ fs = y at hstaged hcrash
        obtain ⟨s, crash⟩ := x
        obtain ⟨s', crash'⟩ := y
        simp only at hstaged hcrash
        subst hcrash
        cases crash with
        | none => exact ⟨by simp only [hstaged.registered, hstaged.dropped], hstaged.entries⟩
        | some p => exact ⟨by simp only [hstaged.dropped], h⟩

/-- **The identities in use do not count.** -/
theorem tryAll_alike (candidates : List (String × Opening)) {stock stock' : Stock}
    (h : SameEntries stock.registry stock'.registry) :
    (tryAll stock candidates).1 = (tryAll stock' candidates).1 ∧
      SameEntries (tryAll stock candidates).2.registry (tryAll stock' candidates).2.registry := by
  induction candidates generalizing stock stock' with
  | nil => exact ⟨rfl, h⟩
  | cons c rest ih =>
    obtain ⟨htrial, hentries⟩ := tryCandidate_alike h c.1 c.2
    obtain ⟨htrials, hlast⟩ := ih hentries
    rw [tryAll_cons, tryAll_cons, htrial, htrials]
    exact ⟨rfl, hlast⟩

theorem loadPlugins_alike (enabled reportConflicts : Bool) (source : PluginSource) (roots : List String)
    (stock stock' : Stock) (h : SameEntries stock.registry stock'.registry) :
    (loadPlugins enabled reportConflicts source roots stock).trials =
      (loadPlugins enabled reportConflicts source roots stock').trials ∧
    SameEntries (loadPlugins enabled reportConflicts source roots stock).stock.registry
      (loadPlugins enabled reportConflicts source roots stock').stock.registry := by
  cases enabled with
  | true => exact tryAll_alike (source roots).candidates h
  | false => exact ⟨rfl, h⟩

/-! ## Main result -/

/-- **Loading is accounted for.** For every registry and whatever the candidates do:
- the report lists each candidate once and in order, among the loaded ones if it has no fault and else among the skipped
  ones with its first fault; the context holds the loaded plugins;
- candidate `k` is settled over the plugins that were loaded before it, and the conflicts are those of the loaded ones;
- the functions of a plugin divide into those that it was granted and its conflicts;
- what was registered before keeps its entry, and afterwards every name is held by who held it at first or else by the
  first plugin that was granted it.
Loading again starts from the base registry: the report, the context and the registry, but for new identities, are those
of a single pass, whatever was loaded before. -/
theorem loading_accounted :
    (∀ (reportConflicts : Bool) (source : PluginSource) (roots : List String) (stock : Stock),
      let candidates := (source roots).candidates
      let load := loadPlugins true reportConflicts source roots stock
      let report := Report.ofTrials load.trials
      report.loaded.map Loaded.path = (candidates.filter fun c => (fault? c.2).isNone).map Prod.fst ∧
      report.skipped = (candidates.filterMap fun c => (fault? c.2).map fun e => ⟨c.1, e.message⟩) ∧
      contextOf load.trials = report.loaded.map (fun l => (l.name, l.path)) ∧
      load.trials.length = candidates.length ∧
      (∀ k c, candidates[k]? = some c → ∃ t, load.trials[k]? = some t ∧
        Settled stock.registry ((load.trials.take k).filterMap Trial.loaded?) c.1 c.2
          (tryAll stock (candidates.take k)).2 t (tryAll stock (candidates.take (k + 1))).2) ∧
      report.conflicts = load.trials.flatMap Trial.conflicts ∧
      (∀ t ∈ load.trials, t.loaded? = none → t.conflicts = []) ∧
      (∀ before plugin path ns, let ts := turns stock.registry before plugin path [] ns
        (granted ts).Sublist ns ∧ ((refused plugin path ts).map Conflict.function).Sublist ns ∧
          (granted ts ++ (refused plugin path ts).map Conflict.function).Perm ns) ∧
      FreeNames.Extends stock.registry load.stock.registry ∧
      ∀ x, load.stock.registry.source? x = holder? stock.registry report.loaded x) ∧
    (∀ (e : Engine) (earlier source : PluginSource),
      let once := (e.reload source).1
      let again := ((e.reload earlier).1.reload source).1
      again.report = once.report ∧ again.plugins = once.plugins ∧ SameEntries again.registry once.registry ∧
        FreeNames.Extends e.base again.registry) := by
  refine ⟨?_, ?_⟩
  · intro reportConflicts source roots stock candidates load report
    obtain ⟨hloaded, hskipped⟩ := tryAll_reported candidates stock
    obtain ⟨hsettled, hagrees⟩ := tryAll_settled candidates (agrees_self stock.registry)
    simp only [List.nil_append] at hsettled hagrees
    refine ⟨hloaded, hskipped, rfl, ?_, hsettled, rfl, ?_, ?_, ?_, hagrees⟩
    · exact tryAll_length candidates stock
    · intro t ht hnone
      unfold Trial.loaded? at hnone
      unfold Trial.conflicts
      split at hnone
      · cases hnone
      · rfl
    · intro before plugin path ns
      exact turns_divide stock.registry before plugin path [] ns
    · exact FreeNames.load_extends true reportConflicts source roots stock
  · intro e earlier source once again
    obtain ⟨htrials, hentries⟩ := loadPlugins_alike e.config.plugins.enabled e.config.plugins.reportConflicts source
      e.roots ⟨e.base, (e.reload earlier).1.nextId⟩ ⟨e.base, e.nextId⟩ (.refl e.base)
    refine ⟨congrArg Report.ofTrials htrials, congrArg contextOf htrials, hentries, ?_⟩
    exact FreeNames.load_extends _ _ source e.roots ⟨e.base, (e.reload earlier).1.nextId⟩

end CurveScript.Accounting
