/-
Paths of files, written with slashes.

A file system knows names and paths as bytes, which need not be a text. A text stands for its UTF-8 bytes.
-/

namespace CurveScript.Path

/-! ## Paths over any symbols -/

section Symbols

variable {β : Type} [BEq β] (slash : β)

/-- the path to an entry of a directory: a slash between the two unless the first is empty or ends in one; a path from
the root stands for itself -/
def joined (dir entry : List β) : List β :=
  if entry.head? == some slash then entry
  else if dir.isEmpty || dir.getLast? == some slash then dir ++ entry
  else dir ++ slash :: entry

/-- the parts of a path between slashes, empty ones left out -/
def pieces (path : List β) : List (List β) := (path.splitOn slash).filter fun p => !p.isEmpty

end Symbols

/-! ## Texts -/

/-- the path to an entry of a directory, as texts -/
def join (dir entry : String) : String := String.ofList (joined '/' dir.toList entry.toList)

/-- the parts of a text between slashes, empty ones left out -/
def parts (path : String) : List String := (pieces '/' path.toList).map String.ofList

/-! ## Bytes -/

/-- a name or a path as a file system knows it -/
abbrev Raw := List UInt8

namespace Raw

/-- the bytes of a text -/
def ofText (s : String) : Raw := s.toUTF8.data.toList

instance : Coe String Raw := ⟨ofText⟩

instance : Coe (List String) (List Raw) := ⟨List.map ofText⟩

/-- the text that the bytes are, if they are one -/
def text? (path : Raw) : Option String := String.fromUTF8? ⟨path.toArray⟩

theorem fromUTF8?_eq_some {b : ByteArray} {s : String} : String.fromUTF8? b = some s ↔ b = s.toByteArray := by
  constructor
  · intro h
    obtain ⟨hvalid, heq⟩ := Option.dite_none_right_eq_some.1 h
    rw [← Option.some.inj heq]
    rfl
  · rintro rfl
    exact dif_pos s.isValidUTF8

/-- Bytes are a text exactly if they are its bytes. -/
theorem text?_eq_some {path : Raw} {s : String} : path.text? = some s ↔ path = ofText s := by
  rw [text?, fromUTF8?_eq_some, ByteArray.ext_iff, ← Array.toList_inj]
  rfl

/-- The path as it is shown. Where it is no text, every byte that is no character of its own is replaced. -/
def shown (path : Raw) : String :=
  path.text?.getD (String.ofList (path.map fun b => if b < 0x80 then Char.ofNat b.toNat else Char.ofNat 0xfffd))

/-- what separates the parts of a path -/
def slash : UInt8 := 0x2f

/-- the part that stands for the directory itself -/
def here : Raw := [0x2e]

/-- the part that stands for the directory above -/
def up : Raw := [0x2e, 0x2e]

/-- the path to an entry of a directory -/
def enter (dir entry : Raw) : Raw := joined slash dir entry

/-- whether the path starts at the root of the system -/
def isAbsolute (path : Raw) : Bool := path.head? == some slash

/-- The parts of a path that name something: single dots are left out, except at the front of a relative path. -/
def components (path : Raw) : List Raw :=
  match pieces slash path with
  | [] => []
  | p :: ps => (if p == here && path.isAbsolute then [] else [p]) ++ ps.filter fun q => q != here

/-- the name of the file that the path leads to, if its last component is a name -/
def fileName? (path : Raw) : Option Raw :=
  match path.components.getLast? with
  | none => none
  | some name => if name == up || name == here then none else some name

end Raw

end CurveScript.Path
