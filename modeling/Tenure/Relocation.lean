/-
  Tenure — where cells have moved to.

  While a collection moves cells it records, for each, the address before and the
  address after.  Afterwards every address is looked up once; an address without
  an entry stays as it is.
-/
import Std.Data.HashMap
import Tenure.Cell.Basic

namespace Tenure

/-- The moves of a collection. -/
structure Relocation where
  moves : Std.HashMap Address Address := {}
  deriving Inhabited

namespace Relocation

/-- No moves. -/
def empty : Relocation := {}

/-- Stores a move, whatever was known of the cell. -/
def store (r : Relocation) (source target : Address) : Relocation :=
  ⟨r.moves.insert source target⟩

/-- Whether a move of the cell is known. -/
def contains (r : Relocation) (source : Address) : Bool := r.moves.contains source

/-- Records a move.  A cell moves only once in a collection: a second move is stored and is
    then a fault. -/
def record (source target : Address) : Action Relocation Unit := fun r =>
  if r.contains source then .error (.movedTwice source) (r.store source target)
  else .ok () (r.store source target)

/-- The address after the moves. -/
def resolve (r : Relocation) (p : Address) : Address := r.moves.getD p p

/-- A slot after the moves. -/
def updateSlot (r : Relocation) (s : Slot) : Slot := s.mapRef r.resolve

/-- A cell after the moves. -/
def updateCell (r : Relocation) (c : Cell) : Cell := c.mapRefs r.resolve

/-- The number of moves. -/
def size (r : Relocation) : Nat := r.moves.size

@[simp] theorem resolve_empty (p : Address) : empty.resolve p = p := by
  simp [resolve, empty]

@[simp] theorem resolve_store (r : Relocation) (source target p : Address) :
    (r.store source target).resolve p = if source = p then target else r.resolve p := by
  simp only [resolve, store, Std.HashMap.getD_insert, beq_iff_eq]

end Relocation

end Tenure
