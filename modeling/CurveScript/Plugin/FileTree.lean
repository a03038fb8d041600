/-
Directory trees with symbolic links.

A path is followed part by part, from the root of the tree if it starts with a slash, else from the current directory.
That is the root as well unless another is given. A link in the way is replaced by its target, at most forty times in
one path.

A path that can be followed need not have a canonical form: the canonical path starts at the root, and its length is
limited like that of every path.
-/
import CurveScript.Path

namespace CurveScript.Plugin

open CurveScript.Path

/-- a file with its content, a symbolic link, or a directory, which lists its entries in any order -/
inductive Node (α : Type) where
  | file (content : α)
  | link (target : Raw)
  | directory (entries : List (Raw × Node α))

/-- why a path leads nowhere, or not to what is asked for -/
inductive PathError where
  | notFound
  | notADirectory
  | isADirectory
  | nameTooLong
  | tooManyLinks
  | notText
  deriving DecidableEq

/-- the error as the operating system puts it -/
def PathError.message : PathError → String
  | notFound => "No such file or directory (os error 2)"
  | notADirectory => "Not a directory (os error 20)"
  | isADirectory => "Is a directory (os error 21)"
  | nameTooLong => "File name too long (os error 36)"
  | tooManyLinks => "Too many levels of symbolic links (os error 40)"
  | notText => "stream did not contain valid UTF-8"

namespace Node

variable {α : Type}

/-- the node at a place that is reached without links -/
def at? (node : Node α) : List Raw → Option (Node α)
  | [] => some node
  | name :: rest =>
    match node with
    | directory entries =>
      match entries.lookup name with
      | some child => child.at? rest
      | none => none
    | _ => none

/-- the parts of a path that are followed; a slash at the end asks for a directory -/
def pathParts (path : Raw) : List Raw :=
  pieces Raw.slash path ++ if path.getLast? == some Raw.slash then [Raw.here] else []

/-- the number of bytes that a name and a path may have -/
def nameLimit : Nat := 255
def pathLimit : Nat := 4095

/-- a place in the tree, or why there is none -/
abbrev Place := Except PathError (List Raw)

/-- Follows parts from a directory at the place `here`, by way of places that `fits` allows. `jump` follows the parts of
a link's target and what comes after it. -/
def followParts (tree : Node α) (fits : List Raw → Bool) (jump : List Raw → List Raw → Place) (here : List Raw) :
    List Raw → Place
  | [] => .ok here
  | part :: rest =>
    if part = Raw.here then followParts tree fits jump here rest
    else if part = Raw.up then followParts tree fits jump here.dropLast rest
    else if nameLimit < part.length || !fits (here ++ [part]) then .error .nameTooLong
    else
      match tree.at? (here ++ [part]) with
      | none => .error .notFound
      | some (directory _) => followParts tree fits jump (here ++ [part]) rest
      | some (file _) => if rest.isEmpty then .ok (here ++ [part]) else .error .notADirectory
      | some (link target) => jump (if target.isAbsolute then [] else here) (pathParts target ++ rest)

/-- follows parts from a directory through at most `links` links -/
def follow (tree : Node α) (fits : List Raw → Bool) : Nat → List Raw → List Raw → Place
  | 0 => followParts tree fits fun _ _ => .error .tooManyLinks
  | links + 1 => followParts tree fits (follow tree fits links)

/-- the most links that are followed in one path -/
def linkLimit : Nat := 40

/-- the place that a path leads to by way of places that `fits` allows -/
def locate (tree : Node α) (fits : List Raw → Bool) (current : List Raw) (path : Raw) : Place :=
  if path.isEmpty then .error .notFound
  else if pathLimit < path.length then .error .nameTooLong
  else tree.follow fits linkLimit (if path.isAbsolute then [] else current) (pathParts path)

/-- allows every place -/
abbrev anywhere : List Raw → Bool := fun _ => true

/-- the place that a path leads to, free of links and dots -/
def canonical (tree : Node α) (path : Raw) (current : List Raw := []) : Place := tree.locate anywhere current path

/-- the number of bytes of the path from the root to a place -/
def fullLength (place : List Raw) : Nat := place.foldl (fun n name => n + name.length + 1) 0

/-- The place that a path leads to, if its canonical path can be written. That is done part by part, and no path on the
way may be too long. -/
def writtenPlace (tree : Node α) (path : Raw) (current : List Raw := []) : Place :=
  tree.locate (fun place => fullLength place ≤ pathLimit) current path

/-- the node that a path leads to -/
def resolve (tree : Node α) (path : Raw) (current : List Raw := []) : Except PathError (Node α) :=
  match tree.canonical path current with
  | .error e => .error e
  | .ok place =>
    match tree.at? place with
    | some node => .ok node
    | none => .error .notFound

/-- the content of the file that a path leads to -/
def read (tree : Node α) (path : Raw) (current : List Raw := []) : Except PathError α :=
  match tree.resolve path current with
  | .error e => .error e
  | .ok (file content) => .ok content
  | .ok _ => .error .isADirectory

/-- the entries of the directory that a path leads to -/
def entries? (tree : Node α) (path : Raw) (current : List Raw := []) : Option (List (Raw × Node α)) :=
  match tree.resolve path current with
  | .ok (directory entries) => some entries
  | _ => none

/-- no entries -/
def emptyDirectory : Node α := directory []

/-- the entries with one that replaces the one of its name, or is new -/
def putEntry (name : Raw) (node : Node α) : List (Raw × Node α) → List (Raw × Node α)
  | [] => [(name, node)]
  | e :: rest => if e.1 = name then (name, node) :: rest else e :: putEntry name node rest

/-- Puts a node at a place, with the directories on the way. -/
def place (leaf : Node α) : List Raw → Node α → Node α
  | [], _ => leaf
  | name :: rest, directory entries =>
    directory (putEntry name (place leaf rest ((entries.lookup name).getD emptyDirectory)) entries)
  | name :: rest, _ => directory [(name, place leaf rest emptyDirectory)]

end Node

end CurveScript.Plugin
