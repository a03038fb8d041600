/-
Finding plugins.

A candidate is a file, or a link to one, whose name ends in the plugin suffix. Roots are searched in their order and
every directory in the order of its names; directories inside a directory are searched where they stand, links to
directories are not. A file that is reached again under another path is listed once, where it was met first. It is told
by its canonical path, or by the path itself if the canonical one cannot be written.
-/
import CurveScript.Plugin.FileTree
import CurveScript.Text.Blank

namespace CurveScript.Plugin

open CurveScript.Path

/-- the end of the names of plugin files -/
def fileSuffix : String := ".psplugin.so"

/-- whether the path leads to a name that is a text with the plugin suffix, in capitals or not -/
def isPluginFile (path : Raw) : Bool :=
  match path.fileName?.bind Raw.text? with
  | some name => fileSuffix.toList.isSuffixOf (Text.lowered name).toList
  | none => false

/-- a path by what it is made of, so that two ways to write it are one -/
structure Key where
  isAbsolute : Bool
  components : List Raw
  deriving DecidableEq

/-- what the file is told by that a path leads to: its canonical path, or the path itself -/
def keyOf {α : Type} (tree : Node α) (current : List Raw) (path : Raw) : Key :=
  match tree.writtenPlace path current with
  | .ok place => ⟨true, place⟩
  | .error _ => ⟨path.isAbsolute, path.components⟩

/-- a plugin file: the path under which it was found, its place in the tree, what it is told by, and its content -/
structure Candidate (α : Type) where
  path : Raw
  place : List Raw
  key : Key
  content : α
  deriving DecidableEq

/-- the candidate that a path is, if it is one -/
def candidate? {α : Type} (tree : Node α) (current : List Raw) (path : Raw) : Option (Candidate α) :=
  if isPluginFile path then
    match tree.canonical path current with
    | .error _ => none
    | .ok place =>
      match tree.at? place with
      | some (.file content) => some ⟨path, place, keyOf tree current path, content⟩
      | _ => none
  else none

/-! ## Walking -/

/-- puts what belongs to a name before the first name that is not less -/
def insertByName {β : Type} (e : Raw × β) : List (Raw × β) → List (Raw × β)
  | [] => [e]
  | f :: rest => if e.1 ≤ f.1 then e :: f :: rest else f :: insertByName e rest

/-- in the order of the names -/
def sortByName {β : Type} (entries : List (Raw × β)) : List (Raw × β) := entries.foldr insertByName []

mutual

/-- the candidates at an entry: a directory's own, entry by entry in the order of the names, or the file itself -/
def walkEntry {α : Type} (tree : Node α) (current : List Raw) (path : Raw) : Node α → List (Candidate α)
  | .directory entries => (sortByName (walkEntries tree current path entries)).flatMap Prod.snd
  | _ => (candidate? tree current path).toList

/-- the candidates at each of the entries of the directory with the path `dir` -/
def walkEntries {α : Type} (tree : Node α) (current : List Raw) (dir : Raw) :
    List (Raw × Node α) → List (Raw × List (Candidate α))
  | [] => []
  | (name, node) :: rest => (name, walkEntry tree current (dir.enter name) node) :: walkEntries tree current dir rest

end

/-- the candidates under a root, repetitions included -/
def walkRoot {α : Type} (tree : Node α) (current : List Raw) (root : Raw) : List (Candidate α) :=
  match tree.entries? root current with
  | some entries => walkEntry tree current root (.directory entries)
  | none => []

/-- the candidates whose key was not seen before -/
def firstMet {α : Type} (seen : List Key) : List (Candidate α) → List (Candidate α)
  | [] => []
  | c :: cs => if c.key ∈ seen then firstMet seen cs else c :: firstMet (c.key :: seen) cs

/-- the candidates under the roots -/
def discover {α : Type} (tree : Node α) (current : List Raw) (roots : List Raw) : List (Candidate α) :=
  firstMet [] (roots.flatMap (walkRoot tree current))

end CurveScript.Plugin
