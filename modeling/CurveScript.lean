import CurveScript.Main
import CurveScript.Plugin.Demo
import CurveScript.Value.Inspect
import CurveScript.Proofs.Grammar
import CurveScript.Proofs.Readers
import CurveScript.Proofs.Reading
import CurveScript.Proofs.Accepting
import CurveScript.Proofs.Sentences
import CurveScript.Proofs.Nesting
import CurveScript.Proofs.Leaves
import CurveScript.Proofs.Shifting
import CurveScript.Proofs.CallStack
import CurveScript.Proofs.RunFold
import CurveScript.Proofs.Invariants
import CurveScript.Proofs.Likeness
import CurveScript.Proofs.SideBySide
import CurveScript.Proofs.FreeNames
import CurveScript.Proofs.LineBreaks
import CurveScript.Proofs.LineByLine
import CurveScript.Proofs.Transparency
import CurveScript.Proofs.Accounting
import CurveScript.Proofs.Blanks
import CurveScript.Proofs.Words
import CurveScript.Proofs.Signs
import CurveScript.Proofs.Munching
import CurveScript.Proofs.Spacing
import CurveScript.Proofs.Placement
import CurveScript.Proofs.Pointing
import CurveScript.Proofs.Blame
import CurveScript.Proofs.Preservation
import CurveScript.Proofs.Numbers
import CurveScript.Proofs.Finiteness
import CurveScript.Proofs.Identities
import CurveScript.Proofs.Graphs
import CurveScript.Proofs.Shadowing
import CurveScript.Proofs.Cutoff
import CurveScript.Proofs.Exactness
import CurveScript.Proofs.Sessions
import CurveScript.Proofs.Positions
import CurveScript.Proofs.Rounding
import CurveScript.Proofs.Doubles
import CurveScript.Proofs.Operations
import CurveScript.Proofs.Comparing
import CurveScript.Proofs.Counting
import CurveScript.Proofs.Sampling
import CurveScript.Proofs.Patterns
import CurveScript.Proofs.Decimals
import CurveScript.Proofs.ShortestDigits
import CurveScript.Proofs.Numerals
import CurveScript.Proofs.OneStatement
import CurveScript.Proofs.ReadBack
import CurveScript.Proofs.Callable
import CurveScript.Proofs.WholeNumbers
import CurveScript.Proofs.Extremes
import CurveScript.Proofs.Sweeping
import CurveScript.Proofs.Containment
import CurveScript.Proofs.Redefinition
import CurveScript.Proofs.Declarations
import CurveScript.Proofs.Documents
import CurveScript.Proofs.Following
import CurveScript.Proofs.Discovering
import CurveScript.Proofs.Registrations
