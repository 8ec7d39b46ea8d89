/-
  Tenure — emptying a young buffer.

  The marked cells of a young buffer leave it in order.  Each ages by one
  collection and goes to the end of the other young buffer or, once old enough, to
  the end of the old generation.  What stays behind is garbage.

  * `Evacuation`: the buffers while cells are moved.
  * `Evacuation.visit`: one cell.
  * `Evacuation.run`: all cells of the buffer.
-/
import Tenure.Address.Arithmetic
import Tenure.Relocation

namespace Tenure

/-- Whether a cell is due for the old generation at its next collection. -/
def Cell.isDue (threshold : Nat) (c : Cell) : Bool := threshold ≤ c.flags.age + 1

/-- A cell after one more collection, without its mark. -/
def Cell.survive (c : Cell) : Cell := { c.unmark with flags := c.unmark.flags.aged }

/-- A cell that has become old. -/
def Cell.promote (c : Cell) : Cell := { c with flags.promoted := true }

/-- The buffers while a young buffer is being emptied. -/
structure Evacuation where
  /-- The other young buffer. -/
  young : Array Cell
  /-- The old generation. -/
  old : Array Cell
  moves : Relocation
  /-- Cells left behind, in order. -/
  garbage : Array Cell := #[]
  survivors : Nat := 0
  promoted : Nat := 0
  deriving Inhabited

namespace Evacuation

/-- Moves one cell from a buffer if it is marked. -/
def visit (threshold : Nat) (side : Semispace) (index : Nat) (c : Cell) :
    Evacuation → Except Fault Evacuation
  | ⟨young, old, moves, garbage, survivors, promoted⟩ =>
    if !c.isMarked then .ok ⟨young, old, moves, garbage.push c, survivors, promoted⟩
    else do
      let source ← Address.young side.number index
      if c.isDue threshold then
        let target ← Address.old old.size
        match Relocation.record source target moves with
        | .error fault _ => .error fault
        | .ok () moves =>
          .ok ⟨young, old.push c.survive.promote, moves, garbage, survivors, promoted + 1⟩
      else
        let target ← Address.young side.other.number young.size
        match Relocation.record source target moves with
        | .error fault _ => .error fault
        | .ok () moves =>
          .ok ⟨young.push c.survive, old, moves, garbage, survivors + 1, promoted⟩

/-- Moves the marked cells of a buffer, which are given with the index of the first. -/
def run (threshold : Nat) (side : Semispace) : List Cell → Nat → Evacuation →
    Except Fault Evacuation
  | [], _, e => .ok e
  | c :: rest, index, e => do
    run threshold side rest (index + 1) (← e.visit threshold side index c)

end Evacuation

end Tenure
