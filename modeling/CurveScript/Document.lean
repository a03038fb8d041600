/-
A script document: the text of one script and its tokens.

The tokens are computed when they are first asked for and kept, an error as well as a success, until the text changes.
`readings` counts how often the text was split, so two answers with one count are one and the same token sequence.
-/
import CurveScript.Run

namespace CurveScript

/-- a text with its tokens, once they are known -/
structure Document where
  source : String
  cached : Option (Except LexError (List Token))
  readings : Nat

namespace Document

/-- a document that was not read yet -/
def ofSource (source : String) : Document := ⟨source, none, 0⟩

/-- the document with another text, and whether the text differs; the tokens of an equal text are kept -/
def setSource (d : Document) (source : String) : Bool × Document :=
  if source = d.source then (false, d) else (true, { d with source := source, cached := none })

/-- the tokens of the text, and the document that keeps them -/
def tokens (d : Document) : Except LexError (List Token) × Document :=
  match d.cached with
  | some known => (known, d)
  | none =>
    let found := Token.tokenize d.source
    (found, { d with cached := some found, readings := d.readings + 1 })

/-- The execution of the document, which keeps its tokens. Where they cannot be made there is none. -/
def run (d : Document) (table : Bindings Value) (registry : Registry) (nextId : Nat) :
    Except LexError Execution × Document :=
  let (tokens, d') := d.tokens
  (tokens.map fun ts => .start ts table registry nextId, d')

end Document

end CurveScript
