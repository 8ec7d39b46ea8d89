/-
  Tenure — the figures of a run.

  * `NamedTimes`: named times in the order in which the names were first recorded.
  * `RunFigures`: lists allocated and retained, the heap's occupancy and counters at
    the end, and the timings.
-/
import Tenure.Counters

namespace Tenure

open Text

/-- Named times. -/
structure NamedTimes where
  entries : List (String × Duration) := []
  deriving DecidableEq, Repr, Inhabited

namespace NamedTimes

/-- No times. -/
def empty : NamedTimes := {}

/-- The time recorded under a name. -/
def get? (t : NamedTimes) (name : String) : Option Duration := t.entries.lookup name

/-- Records a time.  A name that is known keeps its place. -/
def record (t : NamedTimes) (name : String) (elapsed : Duration) : NamedTimes :=
  if (t.get? name).isSome then
    ⟨t.entries.map fun e => if e.1 = name then (name, elapsed) else e⟩
  else ⟨t.entries ++ [(name, elapsed)]⟩

/-- The width of the column of names: one more than the longest name in bytes. -/
def width (t : NamedTimes) : Nat :=
  t.entries.foldl (fun width e => max width e.1.utf8ByteSize) 0 + 1

/-- A line for each time. -/
def text (t : NamedTimes) : String :=
  String.join (t.entries.map fun (name, elapsed) =>
    alignLeft t.width name ++ ": " ++ elapsed.text ++ "\n")

end NamedTimes

/-- The figures of a run. -/
structure RunFigures where
  allocated : Nat := 0
  retained : Nat := 0
  occupancy : Option Occupancy := none
  collections : Counters := {}
  timings : NamedTimes := {}
  deriving DecidableEq, Repr, Inhabited

namespace RunFigures

/-- Counts a list. -/
def countList (s : RunFigures) (retained : Bool) : RunFigures :=
  { s with
    allocated := s.allocated + 1
    retained := if retained then s.retained + 1 else s.retained }

/-- Takes over the figures of a heap. -/
def withHeap (s : RunFigures) (occupancy : Occupancy) (collections : Counters) : RunFigures :=
  { s with occupancy := some occupancy, collections }

/-- Records the time of a phase. -/
def recordPhase (s : RunFigures) (name : String) (elapsed : Duration) : RunFigures :=
  { s with timings := s.timings.record name elapsed }

/-- The report on a run. -/
def text (s : RunFigures) : String :=
  "Lists          : " ++ column 10 s.allocated ++ "\n" ++
  "Retained       : " ++ column 10 s.retained ++ "\n" ++
  (s.occupancy.map (·.text)).getD "" ++ "\n" ++
  s.collections.text ++ "\n" ++
  s.timings.text ++ "\n"

end RunFigures

end Tenure
