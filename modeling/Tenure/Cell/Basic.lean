/-
  Tenure — cells.

  * `Cell`: two slots, the car and the cdr, and the collector's flags.
  * `Half`: which of the two slots.
  * `Cell.references`: the addresses in a cell, which is all that the collector
    sees of it.
  * `Cell.sameContent`: equality of the slots, whatever the flags.
-/
import Tenure.Cell.Flags
import Tenure.Cell.Slot

namespace Tenure

/-- The two slots of a cell. -/
inductive Half
  | car
  | cdr
  deriving DecidableEq, Repr, Inhabited

/-- A cons cell. -/
structure Cell where
  car : Slot := .empty
  cdr : Slot := .empty
  flags : Flags := {}
  deriving DecidableEq, Repr, Inhabited

namespace Cell

/-- A cell with nothing in it. -/
def blank : Cell := {}

/-- A cell of two slots, without flags. -/
def cons (car cdr : Slot) : Cell := { car, cdr }

/-- One of the slots. -/
def slot (c : Cell) : Half → Slot
  | .car => c.car
  | .cdr => c.cdr

/-- Replaces one of the slots. -/
def setSlot (c : Cell) (half : Half) (s : Slot) : Cell :=
  match half with
  | .car => { c with car := s }
  | .cdr => { c with cdr := s }

/-- Writes a payload into one of the slots. -/
def store (c : Cell) (half : Half) (payload : Slot) : Cell :=
  c.setSlot half ((c.slot half).store payload)

/-- The addresses in the slots, the car's first. -/
def references (c : Cell) : List Address := c.car.ref?.toList ++ c.cdr.ref?.toList

/-- The external values in the slots, the car's first. -/
def values (c : Cell) : List ValueId := c.car.value?.toList ++ c.cdr.value?.toList

/-- Whether the cell is marked. -/
def isMarked (c : Cell) : Bool := c.flags.marked

/-- The cell with its mark set. -/
def mark (c : Cell) : Cell := { c with flags.marked := true }

/-- The cell with its mark cleared. -/
def unmark (c : Cell) : Cell := { c with flags.marked := false }

/-- Changes the addresses in both slots. -/
def mapRefs (f : Address → Address) (c : Cell) : Cell :=
  { c with car := c.car.mapRef f, cdr := c.cdr.mapRef f }

/-- Equality of the payloads; flags do not count. -/
def sameContent (a b : Cell) : Bool := a.car.sameContent b.car && a.cdr.sameContent b.cdr

/-- The written form of a cell, given the written form of external values. -/
def text (describe : ValueId → String) (c : Cell) : String :=
  "(" ++ c.car.text describe ++ " . " ++ c.cdr.text describe ++ ") [" ++ c.flags.text ++ "]"

@[simp] theorem flags_setSlot (c : Cell) (half : Half) (s : Slot) :
    (c.setSlot half s).flags = c.flags := by
  cases half <;> rfl

@[simp] theorem flags_store (c : Cell) (half : Half) (payload : Slot) :
    (c.store half payload).flags = c.flags := flags_setSlot c half _

theorem slot_setSlot (c : Cell) (half half' : Half) (s : Slot) :
    (c.setSlot half s).slot half' = if half' = half then s else c.slot half' := by
  cases half <;> cases half' <;> rfl

@[simp] theorem isMarked_mark (c : Cell) : c.mark.isMarked = true := rfl

@[simp] theorem isMarked_unmark (c : Cell) : c.unmark.isMarked = false := rfl

@[simp] theorem references_mark (c : Cell) : c.mark.references = c.references := rfl

@[simp] theorem references_unmark (c : Cell) : c.unmark.references = c.references := rfl

end Cell

end Tenure
