/-
Paths below a directory.

`Below` says which names lead from the entries of a directory to a node without a link, and `pathTo` writes such names
behind a path. A path that leads to a directory leads on: what is written behind it is followed from there, with the
links that are left (`follow_append`). So the path to a file below a directory leads to that file (`canonical_file`),
unless it has more bytes than a path may have.

Dots on the way change nothing if a name follows (`follow_dot`), so the path to a file is followed by its components
(`follow_components`). The place of a file is followed to the file (`follow_place`), and a path with a canonical path
leads to its place (`canonical_of_written`).

Results:
- `pieces_enter`, `pathParts_pathTo`, `fileName?_enter`: the parts of a longer path.
- `follow_append`, `follow_dot`: following in two stretches.
- `follow_anywhere`: following without regard to the length of canonical paths.
- `at?_below`, `follow_below`: nodes below a directory.
- `follow_components`, `follow_place`: what leads to a file.
- `canonical_file`, `canonical_of_written`: the place of a file below a directory, and of one with a canonical path.
-/
import CurveScript.Bindings
import CurveScript.Plugin.FileTree
import Mathlib.Data.List.Basic

namespace CurveScript.Following

open CurveScript.Path CurveScript.Plugin

variable {α : Type} {tree : Node α} {current : List Raw} {dir root name : Raw} {names : List Raw}

/-! ## Trees -/

/-- what an entry of a directory can be called -/
structure IsName (name : Raw) : Prop where
  nonempty : name ≠ []
  noSlash : Raw.slash ∉ name
  notHere : name ≠ Raw.here
  notUp : name ≠ Raw.up
  short : name.length ≤ Node.nameLimit

instance (name : Raw) : Decidable (IsName name) :=
  decidable_of_iff
    (name ≠ [] ∧ Raw.slash ∉ name ∧ name ≠ Raw.here ∧ name ≠ Raw.up ∧ name.length ≤ Node.nameLimit)
    ⟨fun h => ⟨h.1, h.2.1, h.2.2.1, h.2.2.2.1, h.2.2.2.2⟩,
      fun h => ⟨h.nonempty, h.noSlash, h.notHere, h.notUp, h.short⟩⟩

/-- A tree as a file system holds it: every directory names its entries, and no two alike. -/
inductive Proper : Node α → Prop where
  | file {content : α} : Proper (.file content)
  | link {target : Raw} : Proper (.link target)
  | directory {entries : List (Raw × Node α)} (named : ∀ e ∈ entries, IsName e.1)
      (distinct : (entries.map Prod.fst).Nodup) (below : ∀ e ∈ entries, Proper e.2) : Proper (.directory entries)

/-- The names lead from the entries of a directory to the node, through directories and no links. -/
inductive Below : List (Raw × Node α) → List Raw → Node α → Prop where
  | entry {entries name node} (h : (name, node) ∈ entries) : Below entries [name] node
  | inside {entries name sub names node} (h : (name, .directory sub) ∈ entries) (hbelow : Below sub names node) :
      Below entries (name :: names) node

/-- the path that goes on from a path to a directory by names -/
def pathTo (root : Raw) (names : List Raw) : Raw := names.foldl Raw.enter root

/-! ## Parts -/

theorem pieces_append_slash (d e : Raw) :
    pieces Raw.slash (d ++ Raw.slash :: e) = pieces Raw.slash d ++ pieces Raw.slash e := by
  simp only [pieces, List.splitOn]
  rw [List.splitOnP_append_cons d e (by simp), List.filter_append]

theorem pieces_nil : pieces Raw.slash [] = [] := rfl

theorem pieces_name (h : IsName name) : pieces Raw.slash name = [name] := by
  have hslash : ∀ b ∈ name, (b == Raw.slash) = false :=
    fun b hb => beq_eq_false_iff_ne.2 fun heq => h.noSlash (heq ▸ hb)
  have hname : name.isEmpty = false := by simpa using h.nonempty
  simp only [pieces, List.splitOn]
  rw [List.splitOnP_eq_singleton hslash]
  simp [hname]

theorem head?_name (h : IsName name) : (name.head? == some Raw.slash) = false := by
  refine beq_eq_false_iff_ne.2 fun heq => h.noSlash ?_
  exact List.mem_of_mem_head? heq

/-- Entering a directory writes a slash, unless there is nothing to separate. -/
theorem enter_cases (dir : Raw) (h : IsName name) :
    (dir = [] ∧ dir.enter name = name) ∨ (∃ d, dir = d ++ [Raw.slash] ∧ dir.enter name = d ++ Raw.slash :: name) ∨
      (dir ≠ [] ∧ dir.getLast? ≠ some Raw.slash ∧ dir.enter name = dir ++ Raw.slash :: name) := by
  simp only [Raw.enter, joined, head?_name h, Bool.false_eq_true, if_false]
  by_cases hdir : dir = []
  · exact .inl ⟨hdir, by simp [hdir]⟩
  · by_cases hlast : dir.getLast? = some Raw.slash
    · obtain ⟨d, rfl⟩ := List.getLast?_eq_some_iff.1 hlast
      exact .inr (.inl ⟨d, rfl, by simp⟩)
    · exact .inr (.inr ⟨hdir, hlast, by simp [hdir, hlast]⟩)

theorem pieces_enter (h : IsName name) : pieces Raw.slash (dir.enter name) = pieces Raw.slash dir ++ [name] := by
  obtain ⟨rfl, heq⟩ | ⟨d, rfl, heq⟩ | ⟨-, -, heq⟩ := enter_cases dir h <;> rw [heq]
  · rw [pieces_name h, pieces_nil, List.nil_append]
  · rw [pieces_append_slash, pieces_append_slash, pieces_name h, pieces_nil, List.append_nil]
  · rw [pieces_append_slash, pieces_name h]

theorem getLast?_enter (h : IsName name) : (dir.enter name).getLast? = name.getLast? := by
  obtain ⟨rfl, heq⟩ | ⟨d, rfl, heq⟩ | ⟨-, -, heq⟩ := enter_cases dir h <;> rw [heq]
  · rw [List.getLast?_append_cons, List.getLast?_cons_of_ne_nil h.nonempty]
  · rw [List.getLast?_append_cons, List.getLast?_cons_of_ne_nil h.nonempty]

theorem head?_enter (h : IsName name) (hdir : dir ≠ []) : (dir.enter name).head? = dir.head? := by
  obtain ⟨rfl, heq⟩ | ⟨d, rfl, heq⟩ | ⟨-, -, heq⟩ := enter_cases dir h
  · exact absurd rfl hdir
  · rw [heq, List.head?_append, List.head?_append]
    simp
  · rw [heq, List.head?_append_of_ne_nil _ hdir]

theorem pathParts_enter (h : IsName name) : Node.pathParts (dir.enter name) = pieces Raw.slash dir ++ [name] := by
  have hlast : ((dir.enter name).getLast? == some Raw.slash) = false := by
    rw [getLast?_enter h]
    exact beq_eq_false_iff_ne.2 fun heq => h.noSlash (List.mem_of_getLast? heq)
  simp only [Node.pathParts, hlast, pieces_enter h, Bool.false_eq_true, if_false, List.append_nil]

/-- **The parts of a longer path.** -/
theorem pathParts_pathTo (hnames : ∀ n ∈ names, IsName n) (hne : names ≠ []) (root : Raw) :
    Node.pathParts (pathTo root names) = pieces Raw.slash root ++ names := by
  induction names generalizing root with
  | nil => exact absurd rfl hne
  | cons n rest ih =>
    obtain ⟨hn, hrest⟩ := List.forall_mem_cons.1 hnames
    cases rest with
    | nil => exact pathParts_enter hn
    | cons m rest =>
      have hmore := ih hrest (List.cons_ne_nil m rest) (root.enter n)
      rw [pieces_enter hn, List.append_assoc] at hmore
      exact hmore

theorem pieces_pathTo (hnames : ∀ n ∈ names, IsName n) (root : Raw) :
    pieces Raw.slash (pathTo root names) = pieces Raw.slash root ++ names := by
  induction names generalizing root with
  | nil => rw [List.append_nil, pathTo, List.foldl_nil]
  | cons n rest ih =>
    obtain ⟨hn, hrest⟩ := List.forall_mem_cons.1 hnames
    have hmore := ih hrest (root.enter n)
    rw [pieces_enter hn, List.append_assoc] at hmore
    exact hmore

/-- The components of a path are its pieces, but for dots. -/
theorem components_filter (path : Raw) :
    path.components.filter (· != Raw.here) = (pieces Raw.slash path).filter (· != Raw.here) := by
  unfold Raw.components
  cases pieces Raw.slash path with
  | nil => rfl
  | cons p ps =>
    by_cases hp : p = Raw.here
    · by_cases habs : path.isAbsolute = true <;> simp [hp, habs]
    · simp [hp]

theorem head?_pathTo (hnames : ∀ n ∈ names, IsName n) (hroot : root ≠ []) :
    pathTo root names ≠ [] ∧ (pathTo root names).head? = root.head? := by
  induction names generalizing root with
  | nil => exact ⟨hroot, rfl⟩
  | cons n rest ih =>
    obtain ⟨hn, hrest⟩ := List.forall_mem_cons.1 hnames
    have hhead := head?_enter hn hroot
    have hne : root.enter n ≠ [] := fun hnil => by
      rw [hnil, List.head?_nil] at hhead
      exact hroot (List.head?_eq_none_iff.1 hhead.symm)
    obtain ⟨hpath, heq⟩ := ih hrest hne
    exact ⟨hpath, heq.trans hhead⟩

/-- The name of a file is the last that its path was entered by. -/
theorem fileName?_enter (h : IsName name) (dir : Raw) : (dir.enter name).fileName? = some name := by
  have hname : (name != Raw.here) = true := bne_iff_ne.2 h.notHere
  have hlast : (dir.enter name).components.getLast? = some name := by
    unfold Raw.components
    rw [pieces_enter h]
    cases pieces Raw.slash dir with
    | nil => simp [h.notHere]
    | cons p ps => simp [List.filter_append, hname]
  simp only [Raw.fileName?, hlast, beq_eq_false_iff_ne.2 h.notUp, beq_eq_false_iff_ne.2 h.notHere, Bool.or_false,
    Bool.false_eq_true, if_false]

/-! ## Nodes -/

theorem at?_append (node : Node α) (p q : List Raw) : node.at? (p ++ q) = (node.at? p).bind (·.at? q) := by
  induction p generalizing node with
  | nil => cases q <;> rfl
  | cons name rest ih =>
    cases node with
    | file => rfl
    | link => rfl
    | directory entries =>
      rw [List.cons_append, Node.at?, Node.at?]
      cases entries.lookup name with
      | none => rfl
      | some child => exact ih child

theorem mem_of_lookup {β : Type} {entries : List (Raw × β)} {name : Raw} {b : β} (h : entries.lookup name = some b) :
    (name, b) ∈ entries := by
  obtain ⟨before, after, rfl, -⟩ := List.lookup_eq_some_iff.1 h
  exact List.mem_append_right _ List.mem_cons_self

theorem at?_entry {entries : List (Raw × Node α)} (hproper : Proper (.directory entries)) {name : Raw} {node : Node α}
    (h : (name, node) ∈ entries) (rest : List Raw) : (Node.directory entries).at? (name :: rest) = node.at? rest := by
  cases hproper with
  | directory _ hdistinct _ => simp only [Node.at?, Bindings.lookup_of_mem hdistinct h]

/-- What is found in a tree as a file system holds it is held by it as well. -/
theorem Proper.at? {node found : Node α} (hproper : Proper node) {place : List Raw} (h : node.at? place = some found) :
    Proper found := by
  induction place generalizing node with
  | nil =>
    cases h
    exact hproper
  | cons name rest ih =>
    cases hproper with
    | file => cases h
    | link => cases h
    | @directory entries _ _ hbelow =>
      rw [Node.at?] at h
      split at h
      · next child hlookup =>
        exact ih (hbelow (name, child) (mem_of_lookup hlookup)) h
      · cases h

section Below

variable {entries : List (Raw × Node α)} {node : Node α}

theorem Below.ne_nil (h : Below entries names node) : names ≠ [] := by
  cases h <;> exact List.cons_ne_nil _ _

theorem Below.named (h : Below entries names node) (hproper : Proper (.directory entries)) :
    ∀ n ∈ names, IsName n := by
  induction h with
  | entry h =>
    cases hproper with
    | directory hnamed _ _ => exact List.forall_mem_singleton.2 (hnamed _ h)
  | inside h _ ih =>
    cases hproper with
    | directory hnamed _ hbelow => exact List.forall_mem_cons.2 ⟨hnamed _ h, ih (hbelow _ h)⟩

theorem at?_below (hproper : Proper (.directory entries)) (h : Below entries names node) :
    (Node.directory entries).at? names = some node := by
  induction h with
  | entry h => exact at?_entry hproper h []
  | @inside entries name sub names node h _ ih =>
    rw [at?_entry hproper h]
    cases hproper with
    | directory _ _ hbelow => exact ih (hbelow _ h)

end Below

/-! ## Following -/

section Follow

variable {fits : List Raw → Bool} {jump : List Raw → List Raw → Node.Place} {here base : List Raw}

/-- How the parts are followed that a link in the way leaves to follow, with `links` links at most. -/
def jumps (tree : Node α) (fits : List Raw → Bool) : Nat → List Raw → List Raw → Node.Place
  | 0 => fun _ _ => .error .tooManyLinks
  | links + 1 => tree.follow fits links

theorem follow_eq (tree : Node α) (fits : List Raw → Bool) (links : Nat) :
    tree.follow fits links = Node.followParts tree fits (jumps tree fits links) := by
  cases links <;> rfl

/-- where one part of a path leads -/
inductive Stride (α : Type) where
  | directory (place : List Raw)
  | file (place : List Raw) (content : α)
  | link (target : Raw)
  | nowhere (e : PathError)

/-- where a part leads from a directory -/
def stride (tree : Node α) (fits : List Raw → Bool) (here : List Raw) (part : Raw) : Stride α :=
  if part = Raw.here then .directory here
  else if part = Raw.up then .directory here.dropLast
  else if Node.nameLimit < part.length || !fits (here ++ [part]) then .nowhere .nameTooLong
  else
    match tree.at? (here ++ [part]) with
    | none => .nowhere .notFound
    | some (.directory _) => .directory (here ++ [part])
    | some (.file content) => .file (here ++ [part]) content
    | some (.link target) => .link target

/-- What comes after a part is followed from where the part leads. -/
theorem followParts_cons (part : Raw) (ps : List Raw) :
    Node.followParts tree fits jump here (part :: ps) =
      match stride tree fits here part with
      | .directory place => Node.followParts tree fits jump place ps
      | .file place _ => if ps = [] then .ok place else .error .notADirectory
      | .link target => jump (if target.isAbsolute then [] else here) (Node.pathParts target ++ ps)
      | .nowhere e => .error e := by
  unfold stride
  rw [Node.followParts.eq_def]
  simp only [List.isEmpty_iff]
  split
  · rfl
  · split
    · rfl
    · split
      · rfl
      · cases tree.at? (here ++ [part]) with
        | none => rfl
        | some node => cases node <;> rfl

theorem stride_file {part : Raw} {place : List Raw} {content : α}
    (h : stride tree fits here part = .file place content) :
    tree.at? place = some (.file content) := by
  unfold stride at h
  grind

/-- Parts that lead to what is no file lead on from there, with the links that are left. -/
theorem followParts_append {links : Nat} (hjump : tree.follow fits links = Node.followParts tree fits jump)
    (hnext : ∀ here ps, jump here ps = .ok base → ∃ left, ∀ qs, jump here (ps ++ qs) = tree.follow fits left base qs)
    (hbase : ∀ content, tree.at? base ≠ some (.file content)) {ps : List Raw}
    (h : Node.followParts tree fits jump here ps = .ok base) :
    ∃ left, ∀ qs, Node.followParts tree fits jump here (ps ++ qs) = tree.follow fits left base qs := by
  induction ps generalizing here with
  | nil =>
    cases h
    exact ⟨links, fun qs => by rw [List.nil_append, hjump]⟩
  | cons part ps ih =>
    simp only [List.cons_append, followParts_cons] at h ⊢
    cases hstride : stride tree fits here part with
    | directory place => exact ih (by simpa only [hstride] using h)
    | file place content =>
      simp only [hstride] at h
      split at h
      · cases h
        exact absurd (stride_file hstride) (hbase content)
      · cases h
    | link target =>
      obtain ⟨left, hleft⟩ := hnext _ _ (by simpa only [hstride] using h)
      exact ⟨left, fun qs => by rw [← hleft, List.append_assoc]⟩
    | nowhere e =>
      simp only [hstride] at h
      cases h

/-- **A path that leads to a directory leads on from there.** -/
theorem follow_append {links : Nat} (hbase : ∀ content, tree.at? base ≠ some (.file content)) {ps : List Raw}
    (h : tree.follow fits links here ps = .ok base) :
    ∃ left, ∀ qs, tree.follow fits links here (ps ++ qs) = tree.follow fits left base qs := by
  induction links generalizing here ps with
  | zero =>
    have hnone : ∀ here ps, jumps tree fits 0 here ps = .ok base →
        ∃ left, ∀ qs, jumps tree fits 0 here (ps ++ qs) = tree.follow fits left base qs := nofun
    exact followParts_append (follow_eq tree fits 0) hnone hbase h
  | succ links ih => exact followParts_append (follow_eq tree fits (links + 1)) (fun _ _ => ih) hbase h

/-- A dot on the way, as a slash at the end of a path stands for, changes nothing if a name follows. -/
theorem followParts_dot {q : Raw} {qs : List Raw}
    (hnext : ∀ here ps, jump here (ps ++ Raw.here :: q :: qs) = jump here (ps ++ q :: qs)) (ps : List Raw) :
    Node.followParts tree fits jump here (ps ++ Raw.here :: q :: qs) =
      Node.followParts tree fits jump here (ps ++ q :: qs) := by
  induction ps generalizing here with
  | nil =>
    rw [List.nil_append, List.nil_append, followParts_cons]
    simp only [stride, if_true]
  | cons part ps ih =>
    simp only [List.cons_append, followParts_cons part]
    cases stride tree fits here part with
    | directory place => exact ih
    | file place content => simp
    | link target =>
      simp only [← List.append_assoc]
      exact hnext _ _
    | nowhere e => rfl

theorem follow_dot (links : Nat) (here ps : List Raw) (q : Raw) (qs : List Raw) :
    tree.follow fits links here (ps ++ Raw.here :: q :: qs) = tree.follow fits links here (ps ++ q :: qs) := by
  induction links generalizing here ps with
  | zero => exact followParts_dot (fun _ _ => rfl) ps
  | succ links ih => exact followParts_dot ih ps

/-- A path goes on by its pieces, with a slash at its end or without. -/
theorem follow_pathParts (links : Nat) (here : List Raw) (path q : Raw) (qs : List Raw) :
    tree.follow fits links here (Node.pathParts path ++ q :: qs) =
      tree.follow fits links here (pieces Raw.slash path ++ q :: qs) := by
  unfold Node.pathParts
  split
  · rw [List.append_assoc, List.singleton_append, follow_dot]
  · rw [List.append_nil]

/-- Dots on the way to a name change nothing. -/
theorem follow_dots (links : Nat) (here done ps : List Raw) (q : Raw) :
    tree.follow fits links here (done ++ (ps ++ [q])) =
      tree.follow fits links here (done ++ (ps.filter (· != Raw.here) ++ [q])) := by
  induction ps generalizing done with
  | nil => rfl
  | cons p ps ih =>
    by_cases hp : p = Raw.here
    · obtain ⟨r, rs, hrest⟩ := List.exists_cons_of_ne_nil (List.concat_ne_nil q ps)
      rw [List.filter_cons_of_neg (by simp [hp]), ← ih, List.cons_append, hp, hrest, follow_dot]
    · rw [List.filter_cons_of_pos (by simpa using hp)]
      simpa using ih (done ++ [p])

/-- A part leads to the same from everywhere, unless it is too long. -/
theorem stride_anywhere (tree : Node α) (fits : List Raw → Bool) (here : List Raw) (part : Raw) :
    stride tree fits here part = .nowhere .nameTooLong ∨
      stride tree fits here part = stride tree Node.anywhere here part := by
  unfold stride
  grind

theorem followParts_anywhere {jump' : List Raw → List Raw → Node.Place}
    (hjump : ∀ here ps, jump here ps = .ok base → jump' here ps = .ok base) {ps : List Raw}
    (h : Node.followParts tree fits jump here ps = .ok base) :
    Node.followParts tree Node.anywhere jump' here ps = .ok base := by
  induction ps generalizing here with
  | nil => exact h
  | cons part ps ih =>
    rw [followParts_cons] at h ⊢
    obtain hlong | hsame := stride_anywhere tree fits here part
    · rw [hlong] at h
      cases h
    · rw [← hsame]
      cases hstride : stride tree fits here part with
      | directory place => exact ih (by simpa only [hstride] using h)
      | file place content => simpa only [hstride] using h
      | link target => exact hjump _ _ (by simpa only [hstride] using h)
      | nowhere e =>
        rw [hstride] at h
        cases h

/-- **Where a walk ends that is limited,** a walk without a limit ends as well. -/
theorem follow_anywhere {links : Nat} {ps : List Raw} (h : tree.follow fits links here ps = .ok base) :
    tree.follow Node.anywhere links here ps = .ok base := by
  induction links generalizing here ps with
  | zero => exact followParts_anywhere (fun _ _ hnone => hnone) h
  | succ links ih => exact followParts_anywhere (fun _ _ => ih) h

end Follow

/-! ## Below a directory -/

section Below

variable {entries : List (Raw × Node α)} {base : List Raw} {content : α}

theorem stride_entry (hat : tree.at? base = some (.directory entries)) (hproper : Proper (.directory entries))
    {node : Node α} (h : (name, node) ∈ entries) :
    tree.at? (base ++ [name]) = some node ∧ stride tree Node.anywhere base name =
      match node with
      | .directory _ => .directory (base ++ [name])
      | .file content => .file (base ++ [name]) content
      | .link target => .link target := by
  have hnode : tree.at? (base ++ [name]) = some node := by
    rw [at?_append, hat]
    exact at?_entry hproper h []
  have hname : IsName name := by
    cases hproper with
    | directory hnamed _ _ => exact hnamed _ h
  refine ⟨hnode, ?_⟩
  unfold stride
  rw [if_neg hname.notHere, if_neg hname.notUp, if_neg (by simpa using hname.short), hnode]
  cases node <;> rfl

/-- Names that lead to a file are followed to it. -/
theorem follow_below (hat : tree.at? base = some (.directory entries)) (hproper : Proper (.directory entries))
    (h : Below entries names (.file content)) (links : Nat) :
    tree.follow Node.anywhere links base names = .ok (base ++ names) := by
  rw [follow_eq]
  generalize hnode : Node.file content = node at h
  induction h generalizing base with
  | entry h =>
    subst hnode
    rw [followParts_cons, (stride_entry hat hproper h).2]
    rfl
  | @inside entries name sub names node h _ ih =>
    obtain ⟨hsub, hstride⟩ := stride_entry hat hproper h
    have hbelow : Proper (.directory sub) := by
      cases hproper with
      | directory _ _ hbelow => exact hbelow _ h
    rw [followParts_cons, hstride]
    refine (ih hsub hbelow hnode).trans ?_
    rw [List.append_assoc, List.singleton_append]

theorem below_of_at? (h : (Node.directory entries).at? (name :: names) = some node) :
    Below entries (name :: names) node := by
  induction names generalizing entries name with
  | nil =>
    rw [Node.at?] at h
    split at h
    · next child hlookup =>
      cases h
      exact .entry (mem_of_lookup hlookup)
    · cases h
  | cons n rest ih =>
    rw [Node.at?] at h
    split at h
    · next child hlookup =>
      cases child with
      | directory sub => exact .inside (mem_of_lookup hlookup) (ih h)
      | file => cases h
      | link => cases h
    · cases h

/-- The place of a file is followed to the file. -/
theorem follow_place (hproper : Proper tree) {place : List Raw} (h : tree.at? place = some (.file content))
    (links : Nat) : tree.follow Node.anywhere links [] (place.filter (· != Raw.here)) = .ok place := by
  cases place with
  | nil =>
    rw [follow_eq]
    rfl
  | cons name rest =>
    cases tree with
    | file => cases h
    | link => cases h
    | directory entries =>
      have hbelow := below_of_at? h
      have hdots : (name :: rest).filter (· != Raw.here) = name :: rest :=
        List.filter_eq_self.2 fun n hn => bne_iff_ne.2 (hbelow.named hproper n hn).notHere
      rw [hdots]
      exact follow_below rfl hproper hbelow links

/-- A path to a name is followed by its components. -/
theorem follow_components {fits : List Raw → Bool} (hnames : ∀ n ∈ names, IsName n) (hne : names ≠ []) {links : Nat}
    {here : List Raw} :
    tree.follow fits links here (Node.pathParts (pathTo root names)) =
      tree.follow fits links here ((pathTo root names).components.filter (· != Raw.here)) := by
  obtain ⟨ns, q, rfl⟩ := (List.eq_nil_or_concat names).resolve_left hne
  have hq : q ≠ Raw.here := (hnames q (by simp)).notHere
  rw [components_filter, pieces_pathTo hnames, pathParts_pathTo hnames hne]
  simpa [hq] using follow_dots links here [] (pieces Raw.slash root ++ ns) q

/-- A root is a path to a directory. -/
theorem entries?_eq_some :
    tree.entries? root current = some entries ↔
      ∃ base, tree.canonical root current = .ok base ∧ tree.at? base = some (.directory entries) := by
  unfold Node.entries? Node.resolve
  cases hroot : tree.canonical root current with
  | error e => simp
  | ok base =>
    cases hat : tree.at? base with
    | none => simp [hat]
    | some node => cases node <;> simp [hat]

theorem locate_eq_ok {fits : List Raw → Bool} :
    tree.locate fits current root = .ok base ↔
      root ≠ [] ∧ root.length ≤ Node.pathLimit ∧
        tree.follow fits Node.linkLimit (if root.isAbsolute then [] else current) (Node.pathParts root) = .ok base := by
  unfold Node.locate
  by_cases hroot : root = []
  · simp [hroot]
  · by_cases hlength : Node.pathLimit < root.length
    · simp [hroot, hlength, Nat.not_le.2 hlength]
    · simp [hroot, hlength, Nat.le_of_not_lt hlength]

theorem canonical_eq_ok :
    tree.canonical root current = .ok base ↔
      root ≠ [] ∧ root.length ≤ Node.pathLimit ∧
        tree.follow Node.anywhere Node.linkLimit (if root.isAbsolute then [] else current) (Node.pathParts root) =
          .ok base := locate_eq_ok

/-- A canonical path that can be written is that of the place that the path leads to. -/
theorem canonical_of_written (h : tree.writtenPlace root current = .ok base) :
    tree.canonical root current = .ok base := by
  obtain ⟨hne, hlength, hfollow⟩ := locate_eq_ok.1 h
  exact canonical_eq_ok.2 ⟨hne, hlength, follow_anywhere hfollow⟩

/-- **The path to a file below a directory leads to that file.** -/
theorem canonical_file (hroot : tree.canonical root current = .ok base)
    (hat : tree.at? base = some (.directory entries)) (hproper : Proper (.directory entries))
    (h : Below entries names (.file content)) (hlength : (pathTo root names).length ≤ Node.pathLimit) :
    tree.canonical (pathTo root names) current = .ok (base ++ names) := by
  obtain ⟨hne, -, hfollow⟩ := canonical_eq_ok.1 hroot
  have hnames := h.named hproper
  obtain ⟨hpath, hhead⟩ := head?_pathTo hnames hne
  refine canonical_eq_ok.2 ⟨hpath, hlength, ?_⟩
  have hbase : ∀ c, tree.at? base ≠ some (.file c) := by simp [hat]
  obtain ⟨left, hleft⟩ := follow_append hbase hfollow
  have hparts : tree.follow Node.anywhere Node.linkLimit (if root.isAbsolute then [] else current)
      (Node.pathParts root ++ names) = .ok (base ++ names) :=
    (hleft names).trans (follow_below hat hproper h left)
  rw [Raw.isAbsolute, hhead, ← Raw.isAbsolute, pathParts_pathTo hnames h.ne_nil]
  obtain ⟨q, qs, rfl⟩ := List.exists_cons_of_ne_nil h.ne_nil
  rwa [follow_pathParts] at hparts

end Below

end CurveScript.Following
