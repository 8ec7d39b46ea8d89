/-
  Tenure — marking, collecting and allocating in a store.

  * `Store.mark`, `Store.collect`: the phases of the heap with their journal, and
    with the references of discarded cells given up as the cells go.
  * `Store.allocate`: a block of blank cells.  A young buffer without enough room is
    collected once.
  * `Store.allocateLinked`: a block of cells each of which refers to the next.
-/
import Tenure.Store.Basic

namespace Tenure.Store

/-- Notes what a mark phase met. -/
def logMarking (dangling : Array Address) (summary : ReachedCells) (roots : Nat) (s : Store) :
    Store :=
  (dangling.foldl (fun s p => s.log (.danglingIgnored p)) s).log (.marked summary roots)

/-- Marks what the roots reach.  The marks stay. -/
def mark (s : Store) : Store × ReachedCells :=
  let roots := s.heap.roots.size
  let marking := s.heap.mark
  ({ s with heap := marking.heap }.logMarking marking.dangling marking.summary roots,
    marking.summary)

/-- Takes all marks back. -/
def clearMarks (s : Store) : Store := s.mapHeap (·.clearMarks)

/-- Takes away the roots whose owners are gone. -/
def purge (s : Store) : Store := s.mapHeap (·.mapRoots (·.purge.1))

/-- The journal of the first half of a collection, up to the decision. -/
def logStart (c : Collection) (s : Store) : Store :=
  let s := if c.released > 0 then s.log (.rootsReleased c.released) else s
  (s.log .markPhase).logMarking c.dangling c.summary c.heap.roots.size

/-- A young collection. -/
def collect : Action Store (Except HeapError CollectionSummary) := fun s =>
  match s.heap.collect with
  | .error fault => .error fault s
  | .ok c =>
    let s := { s with heap := c.heap }.logStart c
    match c.outcome with
    | .abandoned error => .ok (.error error) (s.log (.refused error))
    | .finished report relocations oldGarbage youngGarbage =>
      let s := if c.plan.compacting then s.log (.compacting c.plan.oldCells c.plan.liveOld) else s
      let s := ((s.releaseCells oldGarbage).log .copyPhase).log (.fixupPhase relocations)
      let s := (s.releaseCells youngGarbage).purge
      .ok (.ok report) (s.log (.collected report))

/-- Appends a block of blank cells for which there is room. -/
def grow (count : Nat) : Action Store Address := fun s =>
  match s.heap.grow count with
  | .ok (heap, p) => .ok p { s with heap }
  | .error fault => .error fault s

/-- Makes room for a block of cells, by a collection if need be. -/
def makeRoom (count : Nat) : Action Store (Except HeapError Unit) := do
  if count ≤ (← get).heap.room then return .ok ()
  modify (·.log (.fullFor count))
  match ← collect with
  | .error error => return .error error
  | .ok _ =>
    let available := (← get).heap.room
    if count ≤ available then return .ok ()
    let error : HeapError := .youngExhausted count available
    modify (·.log (.refused error))
    return .error error

/-- Allocates a block of blank cells. -/
def allocate (count : Nat) : Action Store (Except HeapError Address) := do
  let max := (← get).heap.settings.youngCapacity
  if count = 0 ∨ max < count then return .error (.invalidAllocationSize count max)
  match ← makeRoom count with
  | .error error => return .error error
  | .ok () => return .ok (← grow count)

/-- Allocates a block of cells each of which refers to the next by its cdr. -/
def allocateLinked (count : Nat) : Action Store (Except HeapError Address) := do
  match ← allocate count with
  | .error error => return .error error
  | .ok head =>
    let block ← head.block count
    modify (·.mapHeap (·.link block))
    return .ok head

end Tenure.Store
