/-
Reading declarations, all or nothing.

What a declaration must be is said without the reader: `Spells` for the bytes of a name, `Identifier` for its shape,
`Sound` for the declaration as a whole. What is wrong with one that is not sound is said by `Refused`, whose
constructors are the checks in their order, each under the condition that the earlier ones pass. In a table, that is a
good part before the function with the fault.

Only the entries that the count covers are part of a declaration (`declared`). A library must give as many as it counts.

Results:
- `readName_ok_iff`, `readName_error_iff`: a name.
- `readFunctions_ok_iff`, `readFunctions_error_iff`: a table, by its first fault.
- `read_ok_iff`, `read_error_iff`: a declaration.
- `declarations_all_or_nothing`: the theorem.
-/
import CurveScript.Path
import CurveScript.Plugin.Loader
import CurveScript.Proofs.Readers
import Mathlib.Data.List.Forall2
import Mathlib.Data.List.TakeWhile

namespace CurveScript.Declarations

open CurveScript.Path CurveScript.Plugin

/-! ## What a declaration must be -/

/-- The name spells the text: it is there, and before its first zero byte stand the bytes of the text. -/
def Spells (raw : RawName) (s : String) : Prop :=
  ∃ bytes, raw = some bytes ∧ 0 ∉ Raw.ofText s ∧ (bytes = Raw.ofText s ∨ ∃ rest, bytes = Raw.ofText s ++ 0 :: rest)

/-- a letter from `a` to `z`, small or capital -/
def Letter (c : Char) : Prop := ('A' ≤ c ∧ c ≤ 'Z') ∨ ('a' ≤ c ∧ c ≤ 'z')

/-- a digit from `0` to `9` -/
def Digit (c : Char) : Prop := '0' ≤ c ∧ c ≤ '9'

/-- a letter or an underscore, followed by letters, digits and underscores -/
def Identifier (s : String) : Prop :=
  ∃ c cs, s.toList = c :: cs ∧ (Letter c ∨ c = '_') ∧ ∀ d ∈ cs, Letter d ∨ Digit d ∨ d = '_'

/-- The name spells an identifier. -/
def Named (raw : RawName) (s : String) : Prop := Spells raw s ∧ Identifier s

/-- the functions that a declaration declares -/
def declared (d : Declaration) : List FunctionDeclaration := (d.table.getD []).take d.count

/-- A declaration that can be accepted. -/
structure Sound (d : Declaration) : Prop where
  version : d.version = 1
  name : ∃ s, Named d.name s
  table : 0 < d.count → d.table ≠ none
  functions : ∀ f ∈ declared d, ∃ s, Named f.name s

/-- what is wrong with a name -/
inductive NameFault : RawName → PluginError → Prop
  | missing : NameFault none (.invalidDeclaration "null name")
  | noText {bytes : List UInt8} :
      (∀ s, ¬ Spells (some bytes) s) → NameFault (some bytes) (.invalidDeclaration "name is not UTF-8")
  | noIdentifier {raw : RawName} {s : String} :
      Spells raw s → ¬ Identifier s → NameFault raw (.invalidDeclaration ("'" ++ s ++ "' is not a valid name"))

/-- The first fault of a declaration. -/
inductive Refused : Option Declaration → PluginError → Prop
  | missing : Refused none (.invalidDeclaration "null declaration")
  | version {d : Declaration} : d.version ≠ 1 → Refused (some d) (.versionMismatch d.version 1)
  | name {d : Declaration} {e : PluginError} : d.version = 1 → NameFault d.name e → Refused (some d) e
  | table {d : Declaration} {s : String} :
      d.version = 1 → Named d.name s → 0 < d.count → d.table = none →
      Refused (some d)
        (.invalidDeclaration ("plugin '" ++ s ++ "' declares " ++ toString d.count ++ " functions but no table"))
  | function {d : Declaration} {s : String} {before after : List FunctionDeclaration} {f : FunctionDeclaration}
      {e : PluginError} :
      d.version = 1 → Named d.name s → (0 < d.count → d.table ≠ none) → declared d = before ++ f :: after →
      (∀ g ∈ before, ∃ t, Named g.name t) → NameFault f.name e → Refused (some d) e

/-! ## Names -/

theorem letter_iff (c : Char) : c.isAlpha = true ↔ Letter c := by
  have halpha : c.isAlpha = (decide ('A' ≤ c ∧ c ≤ 'Z') || (decide ('a' ≤ c) && decide (c ≤ 'z'))) := rfl
  simp [halpha, Letter]

theorem digit_iff (c : Char) : c.isDigit = true ↔ Digit c := by
  have hdigit : c.isDigit = (decide ('0' ≤ c) && decide (c ≤ '9')) := rfl
  simp [hdigit, Digit]

theorem isIdentifier_iff (s : String) : isIdentifier s = true ↔ Identifier s := by
  unfold isIdentifier Identifier
  cases s.toList with
  | nil => simp
  | cons c cs => simp [letter_iff, digit_iff, or_assoc]

/-- The bytes before the first zero are those of a text exactly if the name spells it. -/
theorem spells_iff {bytes : List UInt8} {s : String} :
    Spells (some bytes) s ↔ bytes.takeWhile (· != 0) = Raw.ofText s := by
  constructor
  · rintro ⟨_, ⟨⟩, hzero, hbytes⟩
    have hkept : ∀ b ∈ Raw.ofText s, (b != 0) = true := fun b hb => bne_iff_ne.2 fun h => hzero (h ▸ hb)
    obtain rfl | ⟨rest, rfl⟩ := hbytes
    · exact List.takeWhile_eq_self_iff.2 hkept
    · rw [List.takeWhile_append_of_pos hkept]
      simp
  · intro h
    have hzero : (0 : UInt8) ∉ Raw.ofText s := by
      rw [← h]
      exact fun hmem => by simpa using List.mem_takeWhile_imp hmem
    refine ⟨bytes, rfl, hzero, ?_⟩
    have hsplit := List.takeWhile_append_dropWhile (p := (· != 0)) (l := bytes)
    rw [h] at hsplit
    cases hrest : bytes.dropWhile (· != 0) with
    | nil => exact .inl (by rw [← hsplit, hrest, List.append_nil])
    | cons b rest =>
      have hb : (b != 0) = false := by
        simpa [hrest] using List.head_dropWhile_not (· != 0) (l := bytes) (by simp [hrest])
      refine .inr ⟨rest, ?_⟩
      rw [← hsplit, hrest, bne_eq_false_iff_eq.1 hb]

/-- The bytes before the first zero are a text exactly if the name spells it. -/
theorem fromUTF8?_name {bytes : List UInt8} {s : String} :
    String.fromUTF8? ⟨(bytes.takeWhile (· != 0)).toArray⟩ = some s ↔ Spells (some bytes) s :=
  Raw.text?_eq_some.trans spells_iff.symm

/-- A name spells one text at most. -/
theorem Spells.unique {raw : RawName} {s t : String} (hs : Spells raw s) (ht : Spells raw t) : s = t := by
  cases raw with
  | none =>
    obtain ⟨_, hraw, -⟩ := hs
    cases hraw
  | some bytes => exact Option.some.inj ((fromUTF8?_name.2 hs).symm.trans (fromUTF8?_name.2 ht))

theorem readName_spells {raw : RawName} {s : String} (h : Spells raw s) :
    readName raw =
      if isIdentifier s then .ok s else .error (.invalidDeclaration ("'" ++ s ++ "' is not a valid name")) := by
  cases raw with
  | none =>
    obtain ⟨_, hraw, -⟩ := h
    cases hraw
  | some bytes => simp only [readName, fromUTF8?_name.2 h]

theorem readName_noText {bytes : List UInt8} (h : ∀ s, ¬ Spells (some bytes) s) :
    readName (some bytes) = .error (.invalidDeclaration "name is not UTF-8") := by
  have hnone : String.fromUTF8? ⟨(bytes.takeWhile (· != 0)).toArray⟩ = none :=
    Option.eq_none_iff_forall_ne_some.2 fun s hs => h s (fromUTF8?_name.1 hs)
  simp only [readName, hnone]

/-- A name is read, or it has a fault, which is reported. -/
theorem readName_cases (raw : RawName) :
    (∃ s, Named raw s ∧ readName raw = .ok s) ∨ ∃ e, NameFault raw e ∧ readName raw = .error e := by
  cases raw with
  | none => exact .inr ⟨_, .missing, rfl⟩
  | some bytes =>
    by_cases htext : ∃ s, Spells (some bytes) s
    · obtain ⟨s, hs⟩ := htext
      by_cases hid : Identifier s
      · exact .inl ⟨s, ⟨hs, hid⟩, by rw [readName_spells hs, if_pos ((isIdentifier_iff s).2 hid)]⟩
      · exact .inr ⟨_, .noIdentifier hs hid, by rw [readName_spells hs, if_neg (hid ∘ (isIdentifier_iff s).1)]⟩
    · rw [not_exists] at htext
      exact .inr ⟨_, .noText htext, readName_noText htext⟩

theorem readName_ok {raw : RawName} {s : String} (h : Named raw s) : readName raw = .ok s := by
  rw [readName_spells h.1, if_pos ((isIdentifier_iff s).2 h.2)]

theorem readName_error {raw : RawName} {e : PluginError} (h : NameFault raw e) : readName raw = .error e := by
  cases h with
  | missing => rfl
  | noText h => exact readName_noText h
  | noIdentifier hs hid => rw [readName_spells hs, if_neg (hid ∘ (isIdentifier_iff _).1)]

theorem readName_ok_iff {raw : RawName} {s : String} : readName raw = .ok s ↔ Named raw s := by
  refine ⟨fun h => ?_, readName_ok⟩
  obtain ⟨t, ht, hread⟩ | ⟨e, -, hread⟩ := readName_cases raw <;> rw [hread] at h <;> cases h
  exact ht

theorem readName_error_iff {raw : RawName} {e : PluginError} : readName raw = .error e ↔ NameFault raw e := by
  refine ⟨fun h => ?_, readName_error⟩
  obtain ⟨t, -, hread⟩ | ⟨e', he, hread⟩ := readName_cases raw <;> rw [hread] at h <;> cases h
  exact he

/-! ## Tables -/

/-- The function is the one that an entry of the plugin's table declares. -/
structure Exports (plugin : String) (d : FunctionDeclaration) (f : ExportedFunction) : Prop where
  name : Named d.name f.name
  plugin : f.plugin = plugin
  arity : f.arity = d.arity
  entry : f.entry = d.entry

theorem readFunctions_ok_iff {plugin : String} {ds : List FunctionDeclaration} {fs : List ExportedFunction} :
    readFunctions plugin ds = .ok fs ↔ List.Forall₂ (Exports plugin) ds fs := by
  induction ds generalizing fs with
  | nil => simp [readFunctions, eq_comm]
  | cons d ds ih =>
    rw [readFunctions]
    constructor
    · intro h
      split at h
      · cases h
      · next name hname =>
        obtain ⟨gs, hgs, rfl⟩ := Readers.map_eq_ok h
        exact .cons ⟨readName_ok_iff.1 hname, rfl, rfl, rfl⟩ (ih.1 hgs)
    · intro h
      cases h with
      | @cons _ f _ gs hf hgs =>
        obtain ⟨name, _, arity, entry⟩ := f
        obtain ⟨hname, rfl, rfl, rfl⟩ := hf
        rw [readName_ok hname, ih.2 hgs]
        rfl

/-- A table is read exactly if all its functions have names. -/
theorem readFunctions_exists (plugin : String) {ds : List FunctionDeclaration} :
    (∃ fs, readFunctions plugin ds = .ok fs) ↔ ∀ d ∈ ds, ∃ s, Named d.name s := by
  simp only [readFunctions_ok_iff]
  induction ds with
  | nil => simp
  | cons d ds ih =>
    rw [List.forall_mem_cons, ← ih]
    constructor
    · rintro ⟨_, h⟩
      cases h with
      | cons hf hgs => exact ⟨⟨_, hf.name⟩, _, hgs⟩
    · rintro ⟨⟨s, hs⟩, gs, hgs⟩
      exact ⟨⟨s, plugin, d.arity, d.entry⟩ :: gs, .cons ⟨hs, rfl, rfl, rfl⟩ hgs⟩

/-- A table is refused for its first function without a name. -/
theorem readFunctions_error_iff {plugin : String} {ds : List FunctionDeclaration} {e : PluginError} :
    readFunctions plugin ds = .error e ↔
      ∃ before f after, ds = before ++ f :: after ∧ (∀ g ∈ before, ∃ s, Named g.name s) ∧ NameFault f.name e := by
  induction ds with
  | nil => simp [readFunctions]
  | cons d ds ih =>
    rw [readFunctions]
    constructor
    · intro h
      split at h
      · next hname =>
        cases h
        exact ⟨[], d, ds, rfl, by simp, readName_error_iff.1 hname⟩
      · next s hname =>
        obtain ⟨before, f, after, rfl, hbefore, hf⟩ := ih.1 (Readers.map_eq_error h)
        exact ⟨d :: before, f, after, rfl, List.forall_mem_cons.2 ⟨⟨s, readName_ok_iff.1 hname⟩, hbefore⟩, hf⟩
    · rintro ⟨before, f, after, hds, hbefore, hf⟩
      cases before with
      | nil =>
        cases hds
        rw [readName_error hf]
      | cons g before =>
        cases hds
        obtain ⟨⟨s, hs⟩, hbefore⟩ := List.forall_mem_cons.1 hbefore
        rw [readName_ok hs, ih.2 ⟨before, f, after, rfl, hbefore, hf⟩]
        rfl

/-! ## Declarations -/

theorem read_version {d : Declaration} (h : d.version ≠ 1) :
    Declaration.read (some d) = .error (.versionMismatch d.version 1) := by
  simp only [Declaration.read, interfaceVersion, ne_eq, h, not_false_eq_true, if_true]

theorem read_name {d : Declaration} {e : PluginError} (hversion : d.version = 1) (hname : NameFault d.name e) :
    Declaration.read (some d) = .error e := by
  simp only [Declaration.read, interfaceVersion, ne_eq, hversion, not_true_eq_false, if_false, readName_error hname]

/-- The reader's last part: the table, once version and name are good. -/
theorem read_named {d : Declaration} {name : String} (hversion : d.version = 1) (hname : Named d.name name) :
    Declaration.read (some d) =
      if 0 < d.count ∧ d.table = none then
        .error (.invalidDeclaration
          ("plugin '" ++ name ++ "' declares " ++ toString d.count ++ " functions but no table"))
      else (readFunctions name (declared d)).map fun fs => (name, fs) := by
  simp only [Declaration.read, interfaceVersion, ne_eq, hversion, not_true_eq_false, if_false, readName_ok hname,
    declared]
  cases d.table with
  | none => simp [readFunctions, Except.map]
  | some fs => simp

/-- Version and plugin name come first: a declaration is read no further, or both are good. -/
theorem read_cases (d : Declaration) :
    (d.version ≠ 1 ∧ Declaration.read (some d) = .error (.versionMismatch d.version 1)) ∨
    (d.version = 1 ∧ ∃ e, NameFault d.name e ∧ Declaration.read (some d) = .error e) ∨
    (d.version = 1 ∧ ∃ s, Named d.name s) := by
  by_cases hversion : d.version = 1
  · obtain ⟨s, hs, -⟩ | ⟨e, he, -⟩ := readName_cases d.name
    · exact .inr (.inr ⟨hversion, s, hs⟩)
    · exact .inr (.inl ⟨hversion, e, he, read_name hversion he⟩)
  · exact .inl ⟨hversion, read_version hversion⟩

theorem read_ok_iff {d : Declaration} {name : String} {fs : List ExportedFunction} :
    Declaration.read (some d) = .ok (name, fs) ↔
      d.version = 1 ∧ Named d.name name ∧ (0 < d.count → d.table ≠ none) ∧
        List.Forall₂ (Exports name) (declared d) fs := by
  constructor
  · intro h
    obtain ⟨-, hread⟩ | ⟨-, e, -, hread⟩ | ⟨hversion, s, hs⟩ := read_cases d
    · rw [hread] at h
      cases h
    · rw [hread] at h
      cases h
    · rw [read_named hversion hs] at h
      split at h
      · cases h
      · next htable =>
        obtain ⟨gs, hgs, heq⟩ := Readers.map_eq_ok h
        cases heq
        exact ⟨hversion, hs, not_and.1 htable, readFunctions_ok_iff.1 hgs⟩
  · rintro ⟨hversion, hname, htable, hfs⟩
    rw [read_named hversion hname, if_neg (not_and.2 htable), readFunctions_ok_iff.2 hfs]
    rfl

/-- **A declaration is read** exactly if it is sound. -/
theorem read_exists_iff {p : Option Declaration} :
    (∃ m, Declaration.read p = .ok m) ↔ ∃ d, p = some d ∧ Sound d := by
  constructor
  · rintro ⟨⟨name, fs⟩, h⟩
    cases p with
    | none => cases h
    | some d =>
      obtain ⟨hversion, hname, htable, hfs⟩ := read_ok_iff.1 h
      exact ⟨d, rfl, hversion, ⟨name, hname⟩, htable, (readFunctions_exists name).1 ⟨fs, readFunctions_ok_iff.2 hfs⟩⟩
  · rintro ⟨d, rfl, hversion, ⟨name, hname⟩, htable, hfunctions⟩
    obtain ⟨fs, hfs⟩ := (readFunctions_exists name).2 hfunctions
    exact ⟨(name, fs), read_ok_iff.2 ⟨hversion, hname, htable, readFunctions_ok_iff.1 hfs⟩⟩

/-- **A declaration is refused** for its first fault. -/
theorem read_error_iff {p : Option Declaration} {e : PluginError} : Declaration.read p = .error e ↔ Refused p e := by
  constructor
  · intro h
    cases p with
    | none =>
      cases h
      exact .missing
    | some d =>
      obtain ⟨hversion, hread⟩ | ⟨hversion, e', he', hread⟩ | ⟨hversion, s, hs⟩ := read_cases d
      · rw [hread] at h
        cases h
        exact .version hversion
      · rw [hread] at h
        cases h
        exact .name hversion he'
      · rw [read_named hversion hs] at h
        split at h
        · next htable =>
          cases h
          exact .table hversion hs htable.1 htable.2
        · next htable =>
          obtain ⟨before, f, after, hsplit, hbefore, hf⟩ := readFunctions_error_iff.1 (Readers.map_eq_error h)
          exact .function hversion hs (not_and.1 htable) hsplit hbefore hf
  · intro h
    cases h with
    | missing => rfl
    | version hversion => exact read_version hversion
    | name hversion hname => exact read_name hversion hname
    | table hversion hname hcount hnone => rw [read_named hversion hname, if_pos ⟨hcount, hnone⟩]
    | function hversion hname htable hsplit hbefore hf =>
      rw [read_named hversion hname, if_neg (not_and.2 htable),
        readFunctions_error_iff.2 ⟨_, _, _, hsplit, hbefore, hf⟩]
      rfl

/-! ## Modules -/

/-- The module's function is the one that an entry of the plugin's table declares: its description has the declared name
and asks for exactly the declared number of arguments, and its calls go to the declared entry point. -/
def Provides (plugin : String) (d : FunctionDeclaration) (f : ModuleFunction) : Prop :=
  ∃ s info, Named d.name s ∧ f.info = .ok info ∧ info.name = s ∧ info.arity = .exact d.arity ∧
    f.call = .plugin ⟨s, plugin, d.arity, d.entry⟩

theorem Exports.provides {plugin : String} {d : FunctionDeclaration} {f : ExportedFunction} (h : Exports plugin d f) :
    Provides plugin d ⟨.ok f.info, .plugin f⟩ := by
  obtain ⟨name, _, arity, entry⟩ := f
  obtain ⟨hname, rfl, rfl, rfl⟩ := h
  exact ⟨name, _, hname, rfl, rfl, rfl, rfl⟩

/-- **A declaration is read all or nothing.** It is read exactly if it is sound, and the module then has its name and its
functions, one for one. Otherwise it is refused for its first fault, and a library with it adds nothing to a registry. -/
theorem declarations_all_or_nothing (p : Option Declaration) (path : String) :
    ((∃ m, Declaration.read p = .ok m) ↔ ∃ d, p = some d ∧ Sound d) ∧
    (∀ d, p = some d → Sound d → ∃ name m fs,
      Named d.name name ∧ (Binary.library (some p)).openPlugin path = .ok m ∧
      m.name = .ok name ∧ m.functions = .ok fs ∧ List.Forall₂ (Provides name) (declared d) fs) ∧
    (∀ e, Declaration.read p = .error e ↔ Refused p e) ∧
    (∀ e, Refused p e → ∀ stock,
      tryCandidate stock path (.ok ((Binary.library (some p)).openPlugin path)) = (⟨path, [], .skipped e⟩, stock)) := by
  refine ⟨read_exists_iff, ?_, fun e => read_error_iff, ?_⟩
  · rintro d rfl hsound
    obtain ⟨⟨name, fs⟩, hread⟩ := read_exists_iff.2 ⟨d, rfl, hsound⟩
    obtain ⟨-, hname, -, hfs⟩ := read_ok_iff.1 hread
    refine ⟨name, .ofExports name fs, _, hname, ?_, rfl, rfl, ?_⟩
    · simp only [Binary.openPlugin, hread]
    · exact List.forall₂_map_right_iff.2 (hfs.imp fun _ _ => Exports.provides)
  · intro e he stock
    have hopen : (Binary.library (some p)).openPlugin path = .error e := by
      simp only [Binary.openPlugin, read_error_iff.2 he]
    rw [hopen]
    rfl

end CurveScript.Declarations
