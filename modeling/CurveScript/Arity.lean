/-
How many arguments a function accepts.
-/

namespace CurveScript

/-- the argument counts that a function accepts -/
inductive Arity where
  | exact (n : Nat)
  | atLeast (n : Nat)
  | between (low high : Nat)
  deriving DecidableEq

namespace Arity

/-- whether a call with `count` arguments is accepted -/
def accepts : Arity → Nat → Bool
  | exact n, count => count == n
  | atLeast n, count => n ≤ count
  | between low high, count => low ≤ count && count ≤ high

/-- the arity as labels and messages show it -/
def text : Arity → String
  | exact n => toString n
  | atLeast n => toString n ++ "+"
  | between low high => toString low ++ ".." ++ toString high

end Arity

end CurveScript
