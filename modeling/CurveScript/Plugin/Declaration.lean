/-
Declarations of plugin libraries.

A library exports an entry point that gives its declaration: the version of the interface, the plugin's name and a table
of functions. Anything in it may be missing. `Declaration.read` accepts it as a whole or not at all, and reports the
first fault in the order: declaration, version, plugin name, table, function names.
-/
import CurveScript.Plugin.Scalar
import CurveScript.Text.Quoted

namespace CurveScript.Plugin

/-- why a plugin could not be loaded -/
inductive PluginError where
  | cannotOpen (path message : String)
  | missingEntryPoint (path : String)
  | versionMismatch (found expected : Nat)
  | invalidDeclaration (reason : String)
  | crashed (message : String)
  deriving DecidableEq

/-- the message of a plugin error -/
def PluginError.message : PluginError → String
  | cannotOpen path text => "cannot open " ++ Text.quoted path ++ ": " ++ text
  | missingEntryPoint path => Text.quoted path ++ " does not export a plugin declaration"
  | versionMismatch found expected =>
    "plugin ABI version " ++ toString found ++ " is not supported (expected " ++ toString expected ++ ")"
  | invalidDeclaration reason => "invalid plugin declaration: " ++ reason
  | crashed text => "plugin panicked while loading: " ++ text

/-- the version of the interface that declarations must have -/
def interfaceVersion : Nat := 1

/-- a name as a declaration holds it: the bytes before the first zero, or nothing -/
abbrev RawName := Option (List UInt8)

/-- a function of a declaration's table -/
structure FunctionDeclaration where
  name : RawName
  arity : Nat
  entry : Entry

/-- A declaration. The table may be missing, or longer than its count says. -/
structure Declaration where
  version : Nat
  name : RawName
  table : Option (List FunctionDeclaration)
  count : Nat

/-- whether the text is a letter or an underscore, followed by letters, digits and underscores -/
def isIdentifier (name : String) : Bool :=
  match name.toList with
  | [] => false
  | c :: cs => (c.isAlpha || c == '_') && cs.all fun d => d.isAlpha || d.isDigit || d == '_'

/-- the name that a declaration holds, if it is one -/
def readName (raw : RawName) : Except PluginError String :=
  match raw with
  | none => .error (.invalidDeclaration "null name")
  | some bytes =>
    match String.fromUTF8? ⟨(bytes.takeWhile (· != 0)).toArray⟩ with
    | none => .error (.invalidDeclaration "name is not UTF-8")
    | some name =>
      if isIdentifier name then .ok name
      else .error (.invalidDeclaration ("'" ++ name ++ "' is not a valid name"))

/-- the functions of a table, if all their names are good -/
def readFunctions (plugin : String) : List FunctionDeclaration → Except PluginError (List ExportedFunction)
  | [] => .ok []
  | d :: ds =>
    match readName d.name with
    | .error e => .error e
    | .ok name => (readFunctions plugin ds).map (⟨name, plugin, d.arity, d.entry⟩ :: ·)

/-- The plugin's name and functions, if the declaration is good. Only as many entries of the table are read as it
counts. -/
def Declaration.read (d : Option Declaration) : Except PluginError (String × List ExportedFunction) :=
  match d with
  | none => .error (.invalidDeclaration "null declaration")
  | some d =>
    if d.version ≠ interfaceVersion then .error (.versionMismatch d.version interfaceVersion)
    else
      match readName d.name with
      | .error e => .error e
      | .ok name =>
        match d.table with
        | none =>
          if 0 < d.count then
            .error (.invalidDeclaration
              ("plugin '" ++ name ++ "' declares " ++ toString d.count ++ " functions but no table"))
          else .ok (name, [])
        | some fs => (readFunctions name (fs.take d.count)).map fun exported => (name, exported)

/-- the declaration of scalar functions -/
def Declaration.ofFunctions (name : String) (functions : List ScalarFunction) : Declaration where
  version := interfaceVersion
  name := some name.toUTF8.toList
  table := some (functions.map fun f => ⟨some f.name.toUTF8.toList, f.arity, f.entry⟩)
  count := functions.length

end CurveScript.Plugin
