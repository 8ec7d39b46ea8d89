/-
  Tenure — retained lists.

  * `Filler`: the numbers that fill a list.  They depend on the iteration and the
    position alone, so a list can be checked later.
  * `filledList`: allocates a filled list.
  * `RetainedLists`: lists kept alive by one root.  Each hangs off the car of a
    spine cell, the newest first.
-/
import Tenure.Workload.Sample

namespace Tenure

namespace Filler

/-- A number between zero and the iteration that is cheap to find, cut to 32 bits.  The positions are
    those of cells, so that the product with one of them fits a word; the other one wraps around. -/
def mixed (iteration position : Nat) : Except Fault Int32 := do
  let spread := (iteration * 7919 % Word.limit + position * 31) % Word.limit
  let bound ← Word.add iteration 1
  return (Int32.ofNat (spread % bound))

/-- The number at a position of a list: the last one is the iteration. -/
def element (length iteration position : Nat) : Except Fault Int32 :=
  if position + 1 = length then .ok (Int32.ofNat iteration) else mixed iteration position

end Filler

/-- Writes the numbers of a list into its cells, from a position on. -/
def fillCells (length iteration : Nat) : Nat → List Address → Action Store Unit
  | _, [] => pure ()
  | position, p :: rest => do
    Store.write p .car (.int (← Filler.element length iteration position))
    fillCells length iteration (position + 1) rest

/-- Allocates a list of cells that hold numbers. -/
def filledList (length iteration : Nat) : Attempt Address := do
  let head ← Attempt.ofHeap (Store.allocateLinked length)
  fillCells length iteration 0 (← head.block length)
  return head

/-- Retained lists. -/
structure RetainedLists where
  /-- The root on the newest spine cell. -/
  root : Option RootId := none
  /-- The iterations of the lists, oldest first. -/
  iterations : Array Nat := #[]
  deriving DecidableEq, Repr, Inhabited

namespace RetainedLists

/-- A chain without lists. -/
def empty : RetainedLists := {}

/-- The number of lists. -/
def size (chain : RetainedLists) : Nat := chain.iterations.size

/-- The address of the newest spine cell. -/
def head? (chain : RetainedLists) (h : Heap) : Option Address := chain.root.bind h.roots.get?

/-- Allocates a spine cell while a root keeps the list, and answers with both. -/
def spineFor (list : Address) : Attempt (Address × Address) := do
  let pending ← Store.addRoot list
  let spine ← (Store.allocate 1 : Action Store _)
  let kept := (← get).heap.roots.get? pending
  modify (·.mapHeap (·.mapRoots (·.erase pending)))
  let spine ← Attempt.ofHeap (pure spine)
  let list ← Attempt.require kept .pendingListLost
  return (spine, list)

/-- Hangs a list off a new spine cell in front of the others. -/
def push : RetainedLists → Address → Nat → Attempt RetainedLists
  | ⟨root, iterations⟩, list, iteration => do
    let (spine, list) ← spineFor list
    Store.write spine .car (.ref list)
    if let some previous := root.bind (← get).heap.roots.get? then
      Store.write spine .cdr (.ref previous)
    match root with
    | some id => modify (·.mapHeap (·.mapRoots (·.set id spine)))
    | none => pure ()
    let id ← root.getDM (Store.addRoot spine)
    return ⟨some id, iterations.push iteration⟩

/-- Checks the cells of one list from a position on. -/
def verifyCells (h : Heap) (length iteration : Nat) :
    Nat → List Address → Except Fault (Option Corruption)
  | _, [] => .ok none
  | position, p :: rest => do
    let expected ← Filler.element length iteration position
    if ((h.get? p).getD .blank).car.int? = some expected then
      verifyCells h length iteration (position + 1) rest
    else return some (.listChanged iteration position)

/-- Checks one list, given its spine cell. -/
def verifyList (h : Heap) (length iteration : Nat) (spine : Address) : Except Fault Verdict :=
  match ((h.get? spine).getD .blank).car.ref? with
  | none => .ok (.corrupted .retainedListLost)
  | some list =>
    match h.walkAll list with
    | none => .ok .endless
    | some cells =>
      if cells.length ≠ length then
        .ok (.corrupted (.listLength iteration cells.length length))
      else do
        match ← verifyCells h length iteration 0 cells with
        | some finding => return .corrupted finding
        | none => return .intact

/-- Checks lists in order, up to the first that is not intact. -/
def verifyLists (h : Heap) (length : Nat) : List (Address × Nat) → Except Fault Verdict
  | [] => .ok .intact
  | (spine, iteration) :: rest => do
    match ← verifyList h length iteration spine with
    | .intact => verifyLists h length rest
    | verdict => return verdict

/-- Checks that the chain holds exactly the retained lists, intact. -/
def verify (chain : RetainedLists) (h : Heap) (length : Nat) : Except Fault Verdict :=
  let spines :=
    match chain.head? h with
    | some head => h.walkAll head
    | none => some []
  match spines with
  | none => .ok .endless
  | some spines =>
    if spines.length ≠ chain.size then
      .ok (.corrupted (.chainLength spines.length chain.size))
    else verifyLists h length (spines.zip chain.iterations.toList.reverse)

/-- Takes the root away, which leaves the lists as garbage. -/
def release (chain : RetainedLists) (s : Store) : Store :=
  match chain.root with
  | some id => s.mapHeap (·.mapRoots (·.erase id))
  | none => s

end RetainedLists

end Tenure
