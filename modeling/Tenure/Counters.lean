/-
  Tenure — occupancy and the counts of collections.

  * `Occupancy`: how full a heap is.
  * `CollectionSummary`: what one collection did.
  * `Counters`: the totals over all collections of a heap.  `Counters.record` adds
    a report field by field, and a total that does not fit stops it there.
-/
import Tenure.Duration
import Tenure.Fault

namespace Tenure

open Text

/-- How full a heap is. -/
structure Occupancy where
  youngUsed : Nat := 0
  youngCapacity : Nat := 0
  oldUsed : Nat := 0
  oldCapacity : Nat := 0
  roots : Nat := 0
  deriving DecidableEq, Repr, Inhabited

/-- A report on occupancy, a line for each generation and one for the roots. -/
def Occupancy.text (o : Occupancy) : String :=
  "Young          : " ++ column 10 o.youngUsed ++ " / " ++ column 10 o.youngCapacity ++ "\n" ++
  "Old            : " ++ column 10 o.oldUsed ++ " / " ++ column 10 o.oldCapacity ++ "\n" ++
  "Roots          : " ++ column 10 o.roots ++ "\n"

/-- What one young collection did. -/
structure CollectionSummary where
  /-- Cells that stayed young. -/
  survivors : Nat := 0
  /-- Cells that became old. -/
  promoted : Nat := 0
  /-- Young cells that were garbage. -/
  reclaimed : Nat := 0
  /-- Whether the old generation was compacted. -/
  oldCollected : Bool := false
  /-- Old cells that were garbage and went in the compaction. -/
  oldReclaimed : Nat := 0
  deriving DecidableEq, Repr, Inhabited

/-- Totals since the heap was made. -/
structure Counters where
  youngCollections : Nat := 0
  oldCollections : Nat := 0
  copied : Nat := 0
  promoted : Nat := 0
  reclaimed : Nat := 0
  oldReclaimed : Nat := 0
  /-- Collections that were given up because the old generation was full. -/
  failedCollections : Nat := 0
  /-- The time spent in collections. -/
  time : Duration := {}
  deriving DecidableEq, Repr, Inhabited

namespace Counters

/-- Nothing counted yet. -/
def zero : Counters := {}

/-- Adds to one of the totals. -/
def tally (total : Counters → Nat) (update : Counters → Nat → Counters) (n : Nat) :
    Action Counters Unit := fun c =>
  match Word.add (total c) n with
  | .ok sum => .ok () (update c sum)
  | .error fault => .error fault c

/-- Counts a collection. -/
def record (report : CollectionSummary) : Action Counters Unit := do
  tally youngCollections (fun c n => { c with youngCollections := n }) 1
  if report.oldCollected then
    tally oldCollections (fun c n => { c with oldCollections := n }) 1
  tally copied (fun c n => { c with copied := n }) report.survivors
  tally promoted (fun c n => { c with promoted := n }) report.promoted
  tally reclaimed (fun c n => { c with reclaimed := n }) report.reclaimed
  tally oldReclaimed (fun c n => { c with oldReclaimed := n }) report.oldReclaimed

/-- Counts a collection that was given up. -/
def recordAbandoned : Action Counters Unit :=
  tally failedCollections (fun c n => { c with failedCollections := n }) 1

/-- A report on the totals, a line for each. -/
def text (c : Counters) : String :=
  "Young GCs      : " ++ column 10 c.youngCollections ++ "\n" ++
  "Old GCs        : " ++ column 10 c.oldCollections ++ "\n" ++
  "Failed GCs     : " ++ column 10 c.failedCollections ++ "\n" ++
  "Copied         : " ++ column 10 c.copied ++ "\n" ++
  "Promoted       : " ++ column 10 c.promoted ++ "\n" ++
  "Reclaimed      : " ++ column 10 c.reclaimed ++ "\n" ++
  "Old reclaimed  : " ++ column 10 c.oldReclaimed ++ "\n" ++
  "GC time        : " ++ c.time.text ++ "\n"

end Counters

end Tenure
