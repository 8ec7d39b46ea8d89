/-
  Tenure — a young collection.

  A collection marks what the roots reach, decides whether the old generation has
  to be compacted and whether it can take the cells that are due for it, and then
  either gives up without having moved anything or empties the active young buffer
  and updates every address once.

  * `CollectionPlan`: the decision, made before anything moves.
  * `Heap.collect`: the collection of a heap.  What the discarded cells held is
    left to the caller, who gets them in the order in which they go.
-/
import Tenure.Compaction
import Tenure.Evacuation
import Tenure.Heap.Mark

namespace Tenure

/-- What a collection is going to do, decided when the cells are marked. -/
structure CollectionPlan where
  /-- Young cells that are due for the old generation. -/
  promoting : Nat
  /-- Cells in the old generation. -/
  oldCells : Nat
  /-- Whether the old generation is compacted. -/
  compacting : Bool
  /-- Cells of the old generation that stay. -/
  liveOld : Nat
  deriving DecidableEq, Repr

/-- How a collection ended. -/
inductive CollectionOutcome
  /-- Nothing was moved, because the old generation cannot take what is due for it. -/
  | abandoned (error : HeapError)
  /-- Cells were moved.  The discarded cells are given in the order in which they go: those of
      the old generation during the compaction, those of the young one at the end. -/
  | finished (report : CollectionSummary) (relocations : Nat) (oldGarbage youngGarbage : Array Cell)

/-- A collection: the heap that it leaves and what it found on the way. -/
structure Collection where
  heap : Heap
  /-- Roots that were taken away at the start because their owners were gone. -/
  released : Nat
  summary : ReachedCells
  /-- Addresses met in the mark phase that named no cell. -/
  dangling : Array Address
  plan : CollectionPlan
  outcome : CollectionOutcome

namespace Heap

/-- The plan for a heap whose live cells are marked.  The old generation is compacted when it
    is over its high-water mark, or when that is the only way to make room. -/
def plan (h : Heap) : CollectionPlan :=
  let promoting := h.active.countP fun c => c.isMarked && c.isDue h.settings.promotionThreshold
  let compacting :=
    h.settings.oldHighWater < h.old.size || h.settings.oldCapacity < h.old.size + promoting
  { promoting, oldCells := h.old.size, compacting,
    liveOld := if compacting then Compaction.markedCount h.old else h.old.size }

/-- Gives a collection up: all marks go, and the failure is counted. -/
def abandon (h : Heap) : Except Fault Heap :=
  match Counters.recordAbandoned h.counters with
  | .ok () counters => .ok { h.clearMarks with counters }
  | .error fault _ => .error fault

/-- The heap with its cells moved: every address in a root or a cell is looked up once, old
    cells lose their marks, and the young buffers change their roles. -/
def settle (h : Heap) (e : Evacuation) : Heap :=
  { h with
    side := h.side.other
    active := e.young.map e.moves.updateCell
    idle := #[]
    old := e.old.map fun c => e.moves.updateCell c.unmark
    roots := h.roots.mapAddresses e.moves.resolve
    relocations := .empty }

/-- Moves the marked cells according to a plan. -/
def move (h : Heap) (plan : CollectionPlan) (summary : ReachedCells) :
    Except Fault (Heap × CollectionOutcome) := do
  let compacted ←
    if plan.compacting then Compaction.compact h.old h.relocations
    else .ok ⟨h.old, #[], h.relocations⟩
  let start : Evacuation :=
    { young := h.idle, old := compacted.kept, moves := compacted.moves }
  let e ← Evacuation.run h.settings.promotionThreshold h.side h.active.toList 0 start
  let reclaimed ← Word.sub h.active.size summary.young
  let report : CollectionSummary :=
    { survivors := e.survivors, promoted := e.promoted, reclaimed,
      oldCollected := plan.compacting, oldReclaimed := compacted.dropped.size }
  match Counters.record report h.counters with
  | .error fault _ => .error fault
  | .ok () counters =>
    return ({ h.settle e with counters },
      .finished report e.moves.size compacted.dropped e.garbage)

/-- A young collection.  Roots whose owners are gone are taken away first. -/
def collect (h : Heap) : Except Fault Collection := do
  if !h.idle.isEmpty then throw .targetInUse
  let (roots, released) := h.roots.purge
  let marking := mark { h with roots }
  let marked := { marking.heap with relocations := .empty }
  let plan := marked.plan
  let capacity := h.settings.oldCapacity
  let (heap, outcome) ←
    if capacity < plan.liveOld + plan.promoting then do
      let heap ← marked.abandon
      pure (heap, .abandoned (.oldExhausted plan.liveOld plan.promoting capacity))
    else marked.move plan marking.summary
  return { heap, released, summary := marking.summary, dangling := marking.dangling, plan, outcome }

end Heap

end Tenure
