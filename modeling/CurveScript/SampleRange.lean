/-
The x-values at which a graph is sampled.

A range has two bounds and a step. `make?` admits finite bounds in order, a positive step, and a quotient below the
point limit; `split?` divides an interval into equal steps. The points are `start + i * step`, as many as fit, with a
small tolerance so that rounding does not lose the end point.
-/
import CurveScript.Double.Layout

namespace CurveScript

/-- an inclusive range of x-values and the distance between them -/
structure SampleRange where
  start : Float
  stop : Float
  step : Float

namespace SampleRange

/-- the number of points that no admitted range exceeds by its quotient -/
def pointLimit : Nat := 1000000

/-- what is asked of the bounds and the step of a range -/
def admissible (start stop step : Float) : Bool :=
  start.isFinite && stop.isFinite && step.isFinite && start ≤ stop && 0.0 < step
    && (stop - start) / step < Float.ofNat pointLimit

/-- the range, if its bounds and step are admitted -/
def make? (start stop step : Float) : Option SampleRange :=
  if admissible start stop step then some ⟨start, stop, step⟩ else none

/-- the interval in `intervals` equal steps, if it is not empty -/
def split? (start stop : Float) (intervals : Nat) : Option SampleRange :=
  if intervals = 0 ∨ stop ≤ start then none
  else make? start stop ((stop - start) / Float.ofNat intervals)

/-- the range used where nothing else is said -/
def standard : SampleRange := ⟨-10.0, 10.0, 0.1⟩

/-- The number of points, in 64 bits. It wraps around to none where the quotient fills them all, which no admitted range
comes to. -/
def pointCount (r : SampleRange) : Nat :=
  (((r.stop - r.start) / r.step + 1e-9).toUInt64 + 1).toNat

/-- the point at a position -/
def point (r : SampleRange) (i : Nat) : Float := r.start + Float.ofNat i * r.step

/-- all points in ascending order -/
def points (r : SampleRange) : List Float := (List.range r.pointCount).map r.point

/-- whether bounds and steps are equal as numbers -/
def same (a b : SampleRange) : Bool := a.start == b.start && a.stop == b.stop && a.step == b.step

/-- the range as labels show it -/
def text (r : SampleRange) : String :=
  "[" ++ Double.messageText r.start ++ ", " ++ Double.messageText r.stop ++ "; " ++ Double.messageText r.step ++ "]"

end SampleRange

end CurveScript
