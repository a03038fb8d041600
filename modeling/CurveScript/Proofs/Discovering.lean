/-
What a search for plugins finds.

`Plugs` says what a plugin file below a directory is, by the names that lead to it, and `Walk` in which order those of a
root are met: by the first name in which they differ. `Firsts` drops what was met before. A search gives the first
meetings of all walks (`Discovers`).

A file is found if the system can follow its path. The path is the root with the names behind it, and a path has at most
`Node.pathLimit` bytes. A longer one leads nowhere, so under a root that is written at length a file is passed over. A
link is found if the system can read a file through it.

What is met again is told by its canonical path. Where that is too long to be written, the components of the path stand
for it, so a file that lies deep may be found under two paths (`long_paths_missed_or_repeated`).

Results:
- `isPluginFile_enter`: the suffix of a name.
- `walkEntry_directory`, `sortByName_sorted`: a directory is walked in the order of the names.
- `lists_directory`, `lists_walkEntry`, `exists_walk`: the walk lists what is there, in order, by induction on the tree.
- `firsts_firstMet`: what is kept of all visits.
- `plugins_found_once`: the theorem. Witness: `nested_plugins_found`.
- `long_paths_missed_or_repeated`: refutation, of a search that finds every file, and each once.
-/
import CurveScript.Plugin.Discovery
import CurveScript.Proofs.Following
import Mathlib.Data.List.Induction
import Mathlib.Data.List.Nodup
import Mathlib.Data.List.Sort

namespace CurveScript.Discovering

open CurveScript.Path CurveScript.Plugin CurveScript.Following

variable {α : Type} {tree : Node α} {current : List Raw} {dir root name : Raw} {names : List Raw} {c : Candidate α}
  {entries : List (Raw × Node α)}

/-! ## What is to be found -/

/-- The name is a text that ends in the plugin suffix, in capitals or not. -/
def HasSuffix (name : Raw) : Prop :=
  ∃ s : String, name = Raw.ofText s ∧
    ∃ stem ending, s.toList = stem ++ ending ∧ ending.map Char.toLower = fileSuffix.toList

/-- The last of the names is that of a plugin file. -/
def Suffixed (names : List Raw) : Prop := ∃ name, names.getLast? = some name ∧ HasSuffix name

/-- The names lead from the entries of a directory to a plugin file, which is a file or a link to one. -/
structure Plugs (tree : Node α) (current : List Raw) (dir : Raw) (entries : List (Raw × Node α)) (names : List Raw)
    (c : Candidate α) : Prop where
  leaf : ∃ node, Below entries names node ∧ ∀ sub, node ≠ .directory sub
  suffix : Suffixed names
  path : c.path = pathTo dir names
  place : tree.canonical c.path current = .ok c.place
  key : c.key = keyOf tree current c.path
  content : tree.at? c.place = some (.file c.content)

/-- the same from a root, which must be a path to a directory -/
def Under (tree : Node α) (current : List Raw) (root : Raw) (names : List Raw) (c : Candidate α) : Prop :=
  ∃ entries, tree.entries? root current = some entries ∧ Plugs tree current root entries names c

/-- The walk of a root: all plugin files below it, in the order of the names that lead to them. -/
def Walk (tree : Node α) (current : List Raw) (root : Raw) (found : List (List Raw × Candidate α)) : Prop :=
  found.Pairwise (fun a b => a.1 < b.1) ∧ ∀ names c, (names, c) ∈ found ↔ Under tree current root names c

/-- Of the candidates that are visited, those are kept whose key was not met before. -/
inductive Firsts : List (Candidate α) → List (Candidate α) → Prop where
  | nothing : Firsts [] []
  | new {visits kept c} (h : Firsts visits kept) (hnew : ∀ b ∈ visits, b.key ≠ c.key) :
      Firsts (visits ++ [c]) (kept ++ [c])
  | again {visits kept c} (h : Firsts visits kept) (hold : ∃ b ∈ visits, b.key = c.key) :
      Firsts (visits ++ [c]) kept

/-! ## Names -/

theorem suffix_map_iff {l : List Char} {f : Char → Char} {ending : List Char} :
    ending <:+ l.map f ↔ ∃ stem tail, l = stem ++ tail ∧ tail.map f = ending := by
  constructor
  · rintro ⟨t, ht⟩
    obtain ⟨stem, tail, rfl, -, rfl⟩ := List.map_eq_append_iff.1 ht.symm
    exact ⟨stem, tail, rfl, rfl⟩
  · rintro ⟨stem, tail, rfl, rfl⟩
    rw [List.map_append]
    exact List.suffix_append _ _

theorem isPluginFile_enter (h : IsName name) (dir : Raw) : isPluginFile (dir.enter name) = true ↔ HasSuffix name := by
  unfold isPluginFile
  rw [fileName?_enter h, Option.bind_some]
  cases htext : name.text? with
  | none =>
    refine iff_of_false Bool.false_ne_true ?_
    rintro ⟨s, hs, -⟩
    rw [Raw.text?_eq_some.2 hs] at htext
    cases htext
  | some s =>
    have hname := Raw.text?_eq_some.1 htext
    simp only [List.isSuffixOf_iff_suffix, Text.lowered, String.toList_map, suffix_map_iff]
    constructor
    · exact fun hending => ⟨s, hname, hending⟩
    · rintro ⟨t, ht, hending⟩
      rw [Raw.text?_eq_some.2 ht] at htext
      cases htext
      exact hending

theorem candidate?_eq_some {path : Raw} :
    candidate? tree current path = some c ↔
      isPluginFile path = true ∧ c.path = path ∧ tree.canonical c.path current = .ok c.place ∧
        c.key = keyOf tree current c.path ∧ tree.at? c.place = some (.file c.content) := by
  unfold candidate?
  constructor
  · intro h
    split at h
    · next hplugin =>
      split at h
      · cases h
      · next place hplace =>
        split at h
        · next content hcontent =>
          cases h
          exact ⟨hplugin, rfl, hplace, rfl, hcontent⟩
        · cases h
    · cases h
  · rintro ⟨hplugin, rfl, hplace, hkey, hcontent⟩
    simp only [hplugin, hplace, hcontent, ← hkey, if_true]

/-! ## The order of names -/

theorem insertByName_eq {β : Type} (e : Raw × β) (l : List (Raw × β)) :
    insertByName e l = l.orderedInsert (fun a b => a.1 ≤ b.1) e := by
  induction l with
  | nil => rfl
  | cons f rest ih => rw [insertByName, List.orderedInsert, ih]

theorem sortByName_eq {β : Type} (l : List (Raw × β)) : sortByName l = l.insertionSort fun a b => a.1 ≤ b.1 := by
  induction l with
  | nil => rfl
  | cons e rest ih =>
    rw [List.insertionSort_cons, ← ih, ← insertByName_eq]
    rfl

theorem sortByName_map {β γ : Type} (f : Raw × β → γ) (l : List (Raw × β)) :
    sortByName (l.map fun e => (e.1, f e)) = (sortByName l).map fun e => (e.1, f e) := by
  rw [sortByName_eq, sortByName_eq]
  exact (List.map_insertionSort (fun a b => a.1 ≤ b.1) (fun a b => a.1 ≤ b.1) (fun e => (e.1, f e)) l
    fun _ _ _ _ => Iff.rfl).symm

theorem mem_sortByName {β : Type} {l : List (Raw × β)} {e : Raw × β} : e ∈ sortByName l ↔ e ∈ l := by
  rw [sortByName_eq, List.mem_insertionSort]

/-- Names that differ are put in order, one after the other. -/
theorem sortByName_sorted {β : Type} {l : List (Raw × β)} (hdistinct : (l.map Prod.fst).Nodup) :
    (sortByName l).Pairwise fun a b => a.1 < b.1 := by
  have hsorted : (l.insertionSort fun a b => a.1 ≤ b.1).Pairwise fun a b => a.1 ≤ b.1 := by
    have : Std.Total fun a b : Raw × β => a.1 ≤ b.1 := ⟨fun a b => List.le_total a.1 b.1⟩
    have : IsTrans (Raw × β) fun a b => a.1 ≤ b.1 := ⟨fun _ _ _ => List.le_trans⟩
    exact List.pairwise_insertionSort _ l
  have hdistinct' : (l.insertionSort fun a b => a.1 ≤ b.1).Pairwise fun a b => a.1 ≠ b.1 := by
    have hperm := (List.perm_insertionSort (fun a b : Raw × β => a.1 ≤ b.1) l).map Prod.fst
    exact List.pairwise_map.1 (hperm.nodup_iff.2 hdistinct)
  rw [sortByName_eq]
  refine (hsorted.and hdistinct').imp fun h => ?_
  exact List.not_le.1 fun hge => h.2 (List.le_antisymm h.1 hge)

/-! ## The walk -/

theorem walkEntries_eq (tree : Node α) (current : List Raw) (dir : Raw) (entries : List (Raw × Node α)) :
    walkEntries tree current dir entries = entries.map fun e => (e.1, walkEntry tree current (dir.enter e.1) e.2) := by
  induction entries with
  | nil => rw [walkEntries, List.map_nil]
  | cons e rest ih =>
    obtain ⟨name, node⟩ := e
    rw [walkEntries, ih, List.map_cons]

/-- **A directory is walked** entry by entry, in the order of the names. -/
theorem walkEntry_directory (tree : Node α) (current : List Raw) (dir : Raw) (entries : List (Raw × Node α)) :
    walkEntry tree current dir (.directory entries) =
      (sortByName entries).flatMap fun e => walkEntry tree current (dir.enter e.1) e.2 := by
  rw [walkEntry, walkEntries_eq, sortByName_map fun e => walkEntry tree current (dir.enter e.1) e.2, List.flatMap_map]

theorem walkEntry_leaf {node : Node α} (h : ∀ sub, node ≠ .directory sub) (path : Raw) :
    walkEntry tree current path node = (candidate? tree current path).toList := by
  cases node with
  | file => rw [walkEntry]; nofun
  | link => rw [walkEntry]; nofun
  | directory sub => exact absurd rfl (h sub)

theorem below_iff {node : Node α} : Below entries names node ↔ ∃ e ∈ entries, Below [e] names node := by
  constructor
  · intro h
    cases h with
    | entry h => exact ⟨_, h, .entry (List.mem_singleton_self _)⟩
    | inside h hbelow => exact ⟨_, h, .inside (List.mem_singleton_self _) hbelow⟩
  · rintro ⟨e, he, h⟩
    cases h with
    | entry h =>
      obtain rfl := List.mem_singleton.1 h
      exact .entry he
    | inside h hbelow =>
      obtain rfl := List.mem_singleton.1 h
      exact .inside he hbelow

/-- A plugin file below a directory is one at one of its entries. -/
theorem plugs_iff : Plugs tree current dir entries names c ↔ ∃ e ∈ entries, Plugs tree current dir [e] names c := by
  constructor
  · rintro ⟨⟨node, hbelow, hleaf⟩, hsuffix, hpath, hplace, hkey, hcontent⟩
    obtain ⟨e, he, hbelow⟩ := below_iff.1 hbelow
    exact ⟨e, he, ⟨node, hbelow, hleaf⟩, hsuffix, hpath, hplace, hkey, hcontent⟩
  · rintro ⟨e, he, ⟨node, hbelow, hleaf⟩, hsuffix, hpath, hplace, hkey, hcontent⟩
    exact ⟨⟨node, below_iff.2 ⟨e, he, hbelow⟩, hleaf⟩, hsuffix, hpath, hplace, hkey, hcontent⟩

/-- At an entry that is no directory there is a plugin file exactly if its path is a candidate. -/
theorem plugs_leaf {node : Node α} (hname : IsName name) (hleaf : ∀ sub, node ≠ .directory sub) :
    Plugs tree current dir [(name, node)] names c ↔
      names = [name] ∧ candidate? tree current (dir.enter name) = some c := by
  rw [candidate?_eq_some, isPluginFile_enter hname dir]
  constructor
  · rintro ⟨⟨_, hbelow, -⟩, ⟨last, hlast, hsuffix⟩, hpath, hplace, hkey, hcontent⟩
    cases hbelow with
    | entry h =>
      cases List.mem_singleton.1 h
      cases hlast
      exact ⟨rfl, hsuffix, hpath, hplace, hkey, hcontent⟩
    | inside h =>
      cases List.mem_singleton.1 h
      exact absurd rfl (hleaf _)
  · rintro ⟨rfl, hsuffix, hpath, hplace, hkey, hcontent⟩
    exact ⟨⟨node, .entry (List.mem_singleton_self _), hleaf⟩, ⟨name, rfl, hsuffix⟩, hpath, hplace, hkey, hcontent⟩

/-- At an entry that is a directory there are the plugin files below it. -/
theorem plugs_directory {sub : List (Raw × Node α)} :
    Plugs tree current dir [(name, .directory sub)] names c ↔
      ∃ rest, names = name :: rest ∧ Plugs tree current (dir.enter name) sub rest c := by
  constructor
  · rintro ⟨⟨node, hbelow, hleaf⟩, ⟨last, hlast, hsuffix⟩, hpath, hplace, hkey, hcontent⟩
    cases hbelow with
    | entry h =>
      cases List.mem_singleton.1 h
      exact absurd rfl (hleaf sub)
    | inside h hbelow =>
      cases List.mem_singleton.1 h
      rw [List.getLast?_cons_of_ne_nil hbelow.ne_nil] at hlast
      exact ⟨_, rfl, ⟨node, hbelow, hleaf⟩, ⟨last, hlast, hsuffix⟩, hpath, hplace, hkey, hcontent⟩
  · rintro ⟨rest, rfl, ⟨node, hbelow, hleaf⟩, ⟨last, hlast, hsuffix⟩, hpath, hplace, hkey, hcontent⟩
    rw [← List.getLast?_cons_of_ne_nil hbelow.ne_nil] at hlast
    exact ⟨⟨node, .inside (List.mem_singleton_self _) hbelow, hleaf⟩, ⟨last, hlast, hsuffix⟩, hpath, hplace, hkey,
      hcontent⟩

/-- The names of all that is found at an entry start with its name. -/
theorem Plugs.head {e : Raw × Node α} (h : Plugs tree current dir [e] names c) : ∃ rest, names = e.1 :: rest := by
  obtain ⟨node, hbelow, -⟩ := h.leaf
  cases hbelow with
  | entry he =>
    obtain rfl := List.mem_singleton.1 he
    exact ⟨[], rfl⟩
  | inside he =>
    obtain rfl := List.mem_singleton.1 he
    exact ⟨_, rfl⟩

/-- The candidates are the plugin files at the entries, in the order of the names that lead to them. -/
def Lists (tree : Node α) (current : List Raw) (dir : Raw) (entries : List (Raw × Node α))
    (candidates : List (Candidate α)) : Prop :=
  ∃ found : List (List Raw × Candidate α), found.map Prod.snd = candidates ∧
    found.Pairwise (fun a b => a.1 < b.1) ∧ ∀ names c, (names, c) ∈ found ↔ Plugs tree current dir entries names c

theorem lists_leaf {node : Node α} (hname : IsName name) (hleaf : ∀ sub, node ≠ .directory sub) (dir : Raw) :
    Lists tree current dir [(name, node)] (walkEntry tree current (dir.enter name) node) := by
  rw [walkEntry_leaf hleaf]
  refine ⟨(candidate? tree current (dir.enter name)).toList.map fun c => ([name], c), ?_, ?_, ?_⟩
  · rw [List.map_map]
    exact List.map_id _
  · cases candidate? tree current (dir.enter name) <;> simp
  · intro names c
    rw [plugs_leaf hname hleaf]
    simp [eq_comm, and_comm]

/-- What is listed at the entries one by one is listed in the order of their names. -/
theorem lists_directory (hdistinct : (entries.map Prod.fst).Nodup)
    (h : ∀ e ∈ entries, Lists tree current dir [e] (walkEntry tree current (dir.enter e.1) e.2)) :
    Lists tree current dir entries (walkEntry tree current dir (.directory entries)) := by
  choose! found hcandidates hsorted hmem using h
  refine ⟨(sortByName entries).flatMap found, ?_, ?_, ?_⟩
  · rw [walkEntry_directory, List.map_flatMap]
    exact List.flatMap_congr fun e he => hcandidates e (mem_sortByName.1 he)
  · refine List.pairwise_flatMap.2 ⟨fun e he => hsorted e (mem_sortByName.1 he), ?_⟩
    refine (sortByName_sorted hdistinct).imp_of_mem fun {e f} he hf hlt => ?_
    rintro ⟨_, c⟩ hc ⟨_, d⟩ hd
    obtain ⟨rest, rfl⟩ := ((hmem e (mem_sortByName.1 he) _ _).1 hc).head
    obtain ⟨rest', rfl⟩ := ((hmem f (mem_sortByName.1 hf) _ _).1 hd).head
    exact List.cons_lt_cons_iff.2 (.inl hlt)
  · intro names c
    rw [plugs_iff]
    simp only [List.mem_flatMap, mem_sortByName]
    exact exists_congr fun e => and_congr_right fun he => hmem e he names c

theorem lists_inside {sub : List (Raw × Node α)} {candidates : List (Candidate α)}
    (h : Lists tree current (dir.enter name) sub candidates) :
    Lists tree current dir [(name, .directory sub)] candidates := by
  obtain ⟨found, hcandidates, hsorted, hmem⟩ := h
  refine ⟨found.map fun p => (name :: p.1, p.2), ?_, ?_, ?_⟩
  · rw [List.map_map]
    exact hcandidates
  · refine List.pairwise_map.2 (hsorted.imp fun h => ?_)
    exact List.cons_lt_cons_iff.2 (.inr ⟨rfl, h⟩)
  · intro names c
    rw [plugs_directory]
    simp only [← hmem, List.mem_map, Prod.exists, Prod.mk.injEq]
    constructor
    · rintro ⟨rest, _, hrest, rfl, rfl⟩
      exact ⟨rest, rfl, hrest⟩
    · rintro ⟨rest, rfl, hrest⟩
      exact ⟨rest, c, hrest, rfl, rfl⟩

/-- **The walk at an entry** lists the plugin files there. -/
theorem lists_walkEntry (tree : Node α) (current : List Raw) {node : Node α} (hproper : Proper node)
    (hname : IsName name) (dir : Raw) :
    Lists tree current dir [(name, node)] (walkEntry tree current (dir.enter name) node) := by
  induction hproper generalizing dir name with
  | file => exact lists_leaf hname (fun _ => by simp) dir
  | link => exact lists_leaf hname (fun _ => by simp) dir
  | directory hnamed hdistinct _ ih =>
    exact lists_inside (lists_directory hdistinct fun e he => ih e he (hnamed e he) (dir.enter name))

/-- **The walk of a root** lists all plugin files below it in their order. -/
theorem exists_walk (hproper : Proper tree) (current : List Raw) (root : Raw) :
    ∃ found, found.map Prod.snd = walkRoot tree current root ∧ Walk tree current root found := by
  unfold walkRoot Walk Under
  cases hroot : tree.entries? root current with
  | none => exact ⟨[], rfl, .nil, by simp⟩
  | some entries =>
    obtain ⟨base, -, hat⟩ := entries?_eq_some.1 hroot
    cases hproper.at? hat with
    | directory hnamed hdistinct hbelow =>
      obtain ⟨found, hcandidates, hsorted, hmem⟩ :=
        lists_directory hdistinct fun e he => lists_walkEntry tree current (hbelow e he) (hnamed e he) root
      exact ⟨found, hcandidates, hsorted, by simpa using hmem⟩

/-! ## First meetings -/

section Firsts

variable {visits kept : List (Candidate α)}

theorem firstMet_snoc (visits : List (Candidate α)) (c : Candidate α) (seen : List Key) :
    firstMet seen (visits ++ [c]) =
      firstMet seen visits ++ if c.key ∈ seen ∨ ∃ b ∈ visits, b.key = c.key then [] else [c] := by
  induction visits generalizing seen with
  | nil => simp [firstMet]
  | cons v rest ih =>
    rw [List.cons_append, firstMet, firstMet]
    split
    · next hv =>
      have hcond : (c.key ∈ seen ∨ ∃ b ∈ v :: rest, b.key = c.key) ↔
          c.key ∈ seen ∨ ∃ b ∈ rest, b.key = c.key := by grind
      simp only [ih, hcond]
    · have hcond : (c.key ∈ seen ∨ ∃ b ∈ v :: rest, b.key = c.key) ↔
          c.key ∈ v.key :: seen ∨ ∃ b ∈ rest, b.key = c.key := by grind
      simp only [ih, hcond, List.cons_append]

theorem firsts_firstMet (visits : List (Candidate α)) : Firsts visits (firstMet [] visits) := by
  induction visits using List.reverseRecOn with
  | nil => exact .nothing
  | append_singleton visits c ih =>
    rw [firstMet_snoc]
    split
    · next hold =>
      rw [List.append_nil]
      exact ih.again (hold.resolve_left List.not_mem_nil)
    · next hnew =>
      refine ih.new fun b hb heq => hnew (.inr ⟨b, hb, heq⟩)

theorem Firsts.visited (h : Firsts visits kept) : ∀ c ∈ kept, c ∈ visits := by
  induction h with
  | nothing => exact fun _ h => h
  | new _ _ ih => grind
  | again _ _ ih => grind

/-- What is visited is kept under its key. -/
theorem Firsts.represents (h : Firsts visits kept) : ∀ b ∈ visits, ∃ c ∈ kept, c.key = b.key := by
  induction h with
  | nothing => simp
  | new _ _ ih => grind
  | again _ _ ih => grind

/-- No key is kept twice. -/
theorem Firsts.nodup (h : Firsts visits kept) : (kept.map Candidate.key).Nodup := by
  induction h with
  | nothing => exact .nil
  | @new visits kept c h hnew ih =>
    rw [List.map_append, List.map_singleton, List.nodup_append]
    refine ⟨ih, List.nodup_singleton _, ?_⟩
    have := h.visited
    grind
  | again _ _ ih => exact ih

end Firsts

/-! ## What a candidate is told by -/

/-- **The key of a file leads to it,** be it the canonical path or the path itself. -/
theorem Plugs.follow_key (hproper : Proper tree) (hentries : Proper (.directory entries))
    (h : Plugs tree current root entries names c) :
    tree.follow Node.anywhere Node.linkLimit (if c.key.isAbsolute then [] else current)
      (c.key.components.filter (· != Raw.here)) = .ok c.place := by
  rw [h.key, keyOf]
  cases hwritten : tree.writtenPlace c.path current with
  | error e =>
    obtain ⟨_, hbelow, -⟩ := h.leaf
    obtain ⟨-, -, hfollow⟩ := canonical_eq_ok.1 h.place
    rw [h.path] at hfollow ⊢
    rwa [follow_components (hbelow.named hentries) hbelow.ne_nil] at hfollow
  | ok written =>
    cases h.place.symm.trans (canonical_of_written hwritten)
    exact follow_place hproper h.content _

/-- **What is told by the same key** is one file. -/
theorem Plugs.same_file {root' : Raw} {names' : List Raw} {entries' : List (Raw × Node α)} {c' : Candidate α}
    (hproper : Proper tree) (hentries : Proper (.directory entries)) (hentries' : Proper (.directory entries'))
    (h : Plugs tree current root entries names c) (h' : Plugs tree current root' entries' names' c')
    (hkey : c.key = c'.key) : c.place = c'.place ∧ c.content = c'.content := by
  have hplace : c.place = c'.place := by
    have hfollow := h.follow_key hproper hentries
    rw [hkey, h'.follow_key hproper hentries'] at hfollow
    exact (Except.ok.inj hfollow).symm
  have hcontent : some (Node.file c.content) = some (.file c'.content) := by
    rw [← h.content, ← h'.content, hplace]
  exact ⟨hplace, Node.file.inj (Option.some.inj hcontent)⟩

/-- A file is told by its place, if its canonical path can be written. -/
theorem Plugs.key_written (h : Plugs tree current root entries names c)
    (hwritten : tree.writtenPlace c.path current = .ok c.place) : c.key = ⟨true, c.place⟩ := by
  rw [h.key, keyOf, hwritten]

/-! ## The search -/

/-- What a search of the roots finds. -/
structure Discovers (tree : Node α) (current : List Raw) (roots : List Raw) (found : List (Candidate α)) : Prop where
  /-- The roots are walked in turn, and a candidate is kept where its key is met first. -/
  order : ∃ walk : Raw → List (List Raw × Candidate α), (∀ root, Walk tree current root (walk root)) ∧
    Firsts (roots.flatMap fun root => (walk root).map Prod.snd) found
  /-- No candidate is found twice, nor are two with one canonical path that can be written from either. -/
  once : found.Nodup ∧ ∀ a ∈ found, ∀ b ∈ found, tree.writtenPlace a.path current = .ok a.place →
    tree.writtenPlace b.path current = .ok b.place → a.place = b.place → a = b
  files : ∀ root ∈ roots, ∀ base entries names content, tree.canonical root current = .ok base →
    tree.at? base = some (.directory entries) → Below entries names (.file content) → Suffixed names →
    (pathTo root names).length ≤ Node.pathLimit → ∃ c ∈ found, c.place = base ++ names ∧ c.content = content
  links : ∀ root ∈ roots, ∀ entries names target content, tree.entries? root current = some entries →
    Below entries names (.link target) → Suffixed names → tree.read (pathTo root names) current = .ok content →
    ∃ c ∈ found, tree.canonical (pathTo root names) current = .ok c.place ∧ c.content = content
  sound : ∀ c ∈ found, ∃ root ∈ roots, ∃ names, Under tree current root names c

theorem read_eq_ok {path : Raw} {content : α} :
    tree.read path current = .ok content ↔
      ∃ place, tree.canonical path current = .ok place ∧ tree.at? place = some (.file content) := by
  unfold Node.read Node.resolve
  cases hpath : tree.canonical path current with
  | error e => simp
  | ok place =>
    cases hat : tree.at? place with
    | none => simp [hat]
    | some node => cases node <;> simp [hat]

/-- The directory that a root leads to is one as a file system holds it. -/
theorem proper_entries (hproper : Proper tree) (h : tree.entries? root current = some entries) :
    Proper (.directory entries) := by
  obtain ⟨base, -, hat⟩ := entries?_eq_some.1 h
  exact hproper.at? hat

/-- **Every plugin file is found once,** in the order of the walk. -/
theorem plugins_found_once (hproper : Proper tree) (current : List Raw) (roots : List Raw) :
    Discovers tree current roots (discover tree current roots) := by
  choose walk hwalk hspec using exists_walk hproper current
  have hfirsts : Firsts (roots.flatMap fun root => (walk root).map Prod.snd) (discover tree current roots) := by
    have hvisits : (roots.flatMap fun root => (walk root).map Prod.snd) = roots.flatMap (walkRoot tree current) :=
      congrArg roots.flatMap (funext hwalk)
    rw [hvisits]
    exact firsts_firstMet _
  have hsound : ∀ c ∈ discover tree current roots, ∃ root ∈ roots, ∃ names, Under tree current root names c := by
    intro c hc
    obtain ⟨root, hroot, hmem⟩ := List.mem_flatMap.1 (hfirsts.visited c hc)
    obtain ⟨⟨names, _⟩, hfound, rfl⟩ := List.mem_map.1 hmem
    exact ⟨root, hroot, names, ((hspec root).2 names _).1 hfound⟩
  -- what is found stands for all that has its key, which is the same file
  have hkept : ∀ root ∈ roots, ∀ names c, Under tree current root names c →
      ∃ k ∈ discover tree current roots, k.place = c.place ∧ k.content = c.content := by
    intro root hroot names c hunder
    have hvisited : c ∈ roots.flatMap fun root => (walk root).map Prod.snd :=
      List.mem_flatMap.2 ⟨root, hroot, List.mem_map.2 ⟨_, ((hspec root).2 names c).2 hunder, rfl⟩⟩
    obtain ⟨k, hk, hkey⟩ := hfirsts.represents c hvisited
    obtain ⟨_, _, _, _, hentries, hplugs⟩ := hsound k hk
    obtain ⟨_, hentries', hplugs'⟩ := hunder
    exact ⟨k, hk, hplugs.same_file hproper (proper_entries hproper hentries) (proper_entries hproper hentries') hplugs'
      hkey⟩
  refine ⟨⟨walk, hspec, hfirsts⟩, ⟨hfirsts.nodup.of_map _, ?_⟩, ?_, ?_, hsound⟩
  · intro a ha b hb hwritten hwritten' hplace
    obtain ⟨_, _, _, _, _, hplugs⟩ := hsound a ha
    obtain ⟨_, _, _, _, _, hplugs'⟩ := hsound b hb
    refine List.inj_on_of_nodup_map hfirsts.nodup ha hb ?_
    rw [hplugs.key_written hwritten, hplugs'.key_written hwritten', hplace]
  · intro root hroot base entries names content hcanonical hat hbelow hsuffix hlength
    have hfile : tree.at? (base ++ names) = some (.file content) := by
      rw [at?_append, hat]
      exact at?_below (hproper.at? hat) hbelow
    exact hkept root hroot names ⟨_, base ++ names, keyOf tree current (pathTo root names), content⟩
      ⟨entries, entries?_eq_some.2 ⟨base, hcanonical, hat⟩, ⟨_, hbelow, by simp⟩, hsuffix, rfl,
        canonical_file hcanonical hat (hproper.at? hat) hbelow hlength, rfl, hfile⟩
  · intro root hroot entries names target content hentries hbelow hsuffix hread
    obtain ⟨place, hplace, hfile⟩ := read_eq_ok.1 hread
    obtain ⟨k, hk, hsame, hcontent⟩ := hkept root hroot names
      ⟨_, place, keyOf tree current (pathTo root names), content⟩
      ⟨entries, hentries, ⟨_, hbelow, by simp⟩, hsuffix, rfl, hplace, rfl, hfile⟩
    exact ⟨k, hk, by rw [hplace, hsame], hcontent⟩

/-! ## Witness: a file, a link to it, and a directory that leads back -/

def nestedTree : Node Nat :=
  .directory [(Raw.ofText "plug", .directory [
    (Raw.ofText "b.psplugin.so", .link (Raw.ofText "a.PSplugin.SO")),
    (Raw.ofText "a.PSplugin.SO", .file 1),
    (Raw.ofText "notes.txt", .file 2),
    (Raw.ofText "sub", .directory [(Raw.ofText "c.psplugin.so", .file 3), (Raw.ofText "up", .link Raw.up)])])]

theorem proper_nestedTree : Proper nestedTree := by
  have hsub :
      Proper (.directory [(Raw.ofText "c.psplugin.so", .file 3), (Raw.ofText "up", .link Raw.up)] : Node Nat) :=
    .directory (by decide +kernel) (by decide +kernel) (by simp [Proper.file, Proper.link])
  refine .directory (by decide +kernel) (by decide +kernel) (List.forall_mem_singleton.2 ?_)
  refine .directory (by decide +kernel) (by decide +kernel) ?_
  simp [Proper.file, Proper.link, hsub]

def overlappingRoots : List Raw := ["plug/sub", "missing", "plug", "./plug/"]

/-- Each file is found once, though one has a link beside it and the roots overlap. -/
theorem nested_plugins_found :
    Proper nestedTree ∧ Discovers nestedTree [] overlappingRoots (discover nestedTree [] overlappingRoots) ∧
      (discover nestedTree [] overlappingRoots).map Candidate.content = [3, 1] :=
  ⟨proper_nestedTree, plugins_found_once proper_nestedTree [] _, by decide +kernel⟩

/-! ## Refutation: a root that is written at length, and a tree that lies deep -/

def plainName : Raw := Raw.ofText "a.psplugin.so"

/-- a directory with one plugin file -/
def plainTree : Node Nat := .directory [(Raw.ofText "plug", .directory [(plainName, .file 1)])]

theorem proper_plainTree : Proper plainTree := by
  refine .directory (by decide +kernel) (by decide +kernel) (List.forall_mem_singleton.2 ?_)
  exact .directory (by decide +kernel) (by decide +kernel) (by simp [Proper.file])

/-- the path to the directory, by way of many dots -/
def winding : Raw := (List.replicate 2040 (Raw.ofText "./")).flatten ++ Raw.ofText "plug"

theorem winding_entries : plainTree.entries? winding = some [(plainName, .file 1)] := by
  have hcanonical : plainTree.canonical winding = .ok [Raw.ofText "plug"] := by decide +kernel
  exact entries?_eq_some.2 ⟨_, hcanonical, rfl⟩

theorem candidate?_overlong {path : Raw} (h : Node.pathLimit < path.length) : candidate? tree current path = none := by
  refine Option.eq_none_iff_forall_ne_some.2 fun c hc => ?_
  obtain ⟨-, rfl, hplace, -⟩ := candidate?_eq_some.1 hc
  obtain ⟨-, hlength, -⟩ := canonical_eq_ok.1 hplace
  exact Nat.not_lt.2 hlength h

theorem discover_winding : discover plainTree [] [winding] = [] := by
  have hlong : Node.pathLimit < (winding.enter plainName).length := by decide +kernel
  have hleaf : walkEntry plainTree [] (winding.enter plainName) (.file 1) = [] := by
    rw [walkEntry_leaf (by simp), candidate?_overlong hlong]
    rfl
  have hwalk : walkRoot plainTree [] winding = [] := by
    simp only [walkRoot, winding_entries, walkEntry_directory, sortByName, insertByName, List.foldr, List.flatMap_cons,
      List.flatMap_nil, hleaf, List.append_nil]
  simp only [discover, List.flatMap_cons, List.flatMap_nil, hwalk, List.append_nil, firstMet]

/-- a tree below directories with the names -/
def nest (names : List Raw) (tree : Node α) : Node α := names.foldr (fun name t => .directory [(name, t)]) tree

theorem proper_nest (hnames : ∀ n ∈ names, IsName n) (hproper : Proper tree) : Proper (nest names tree) := by
  induction names with
  | nil => exact hproper
  | cons n rest ih =>
    obtain ⟨hn, hrest⟩ := List.forall_mem_cons.1 hnames
    exact .directory (List.forall_mem_singleton.2 hn) (List.nodup_singleton n) (List.forall_mem_singleton.2 (ih hrest))

/-- sixteen names that take the length of a path -/
def deep : List Raw := List.replicate 16 (List.replicate 255 0x64)

/-- Two files with the suffix are below roots that lead to their directory. One is not found, as its path has too many
bytes. The other one is found under either root, as its canonical path would have too many. -/
theorem long_paths_missed_or_repeated :
    Suffixed [plainName] ∧
    (Proper plainTree ∧ plainTree.entries? winding = some [(plainName, .file 1)] ∧
      Below [(plainName, .file 1)] [plainName] (Node.file 1) ∧ discover plainTree [] [winding] = []) ∧
    (Proper (nest deep plainTree) ∧
      (discover (nest deep plainTree) deep ["plug", "./plug"]).map Candidate.place =
        [deep ++ [Raw.ofText "plug", plainName], deep ++ [Raw.ofText "plug", plainName]]) := by
  have hname : HasSuffix plainName := (isPluginFile_enter (by decide +kernel) []).1 (by decide +kernel)
  have hdeep : ∀ n ∈ deep, IsName n := fun n hn => by
    rw [List.eq_of_mem_replicate hn]
    decide +kernel
  refine ⟨⟨plainName, rfl, hname⟩, ⟨proper_plainTree, winding_entries, .entry (List.mem_singleton_self _),
    discover_winding⟩, proper_nest hdeep proper_plainTree, by decide +kernel⟩

end CurveScript.Discovering
