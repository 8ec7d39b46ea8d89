/-
  Tenure — compaction of the old generation.

  Two cursors walk towards each other over a buffer.  The upper one passes over
  cells without a mark, the lower one over cells with a mark, and when both are
  stopped their cells change places and the move is recorded.  Where they meet the
  buffer is cut.

  * `squeeze`: the walk between two cursors.
  * `compact`: the cells kept and the cells cut off.
-/
import Tenure.Address.Arithmetic
import Tenure.Relocation

namespace Tenure.Compaction

/-- Whether there is a marked cell at an index. -/
def isLive (cells : Array Cell) (index : Nat) : Bool := (cells[index]?).any (·.isMarked)

/-- A buffer in which the cursors have met, with the moves made. -/
structure Squeezed where
  cells : Array Cell
  meeting : Nat
  moves : Relocation

/-- Walks both cursors until they meet.  What lies below `bottom` is marked, and what lies from
    `top` on is not. -/
def squeeze (cells : Array Cell) (moves : Relocation) (bottom top : Nat) :
    Except Fault Squeezed :=
  if top ≤ bottom then .ok ⟨cells, bottom, moves⟩
  else if !isLive cells (top - 1) then squeeze cells moves bottom (top - 1)
  else if isLive cells bottom then squeeze cells moves (bottom + 1) top
  else do
    let source ← Address.old (top - 1)
    let target ← Address.old bottom
    match Relocation.record source target moves with
    | .error fault _ => .error fault
    | .ok () moves => squeeze (cells.swapIfInBounds bottom (top - 1)) moves bottom (top - 1)
termination_by top - bottom

/-- What a compaction leaves: the cells kept, the cells cut off and the moves. -/
structure Result where
  kept : Array Cell
  dropped : Array Cell
  moves : Relocation

/-- Brings the marked cells of a buffer to its front and cuts off the others. -/
def compact (cells : Array Cell) (moves : Relocation) : Except Fault Result := do
  let s ← squeeze cells moves 0 cells.size
  return ⟨s.cells.take s.meeting, s.cells.drop s.meeting, s.moves⟩

/-- The number of marked cells. -/
def markedCount (cells : Array Cell) : Nat := cells.countP (·.isMarked)

end Tenure.Compaction
