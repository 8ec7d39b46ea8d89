/-
  Tenure — an ideal heap.

  A heap as its clients would have it: there is always room, nothing is ever
  collected, and a cell stays where it is.  Cells are numbered in the order in which
  they are made.

  * `Datum`, `Payload`: what a slot may hold, with addresses of any kind.
  * `Operation`: what a client may ask of a heap.
  * `Ideal`, `Ideal.perform`: the ideal heap, and what the operations do to it.
  * `Heap.reach`, `Heap.read`, `Ideal.reach`, `Ideal.read`: what is at the end of a path
    of slots from a root.
-/
import Tenure.Heap.Basic

namespace Tenure

theorem Slot.ref?_empty : Slot.empty.ref? = none := rfl

/-- A payload that is no address. -/
structure Datum where
  slot : Slot
  noRef : slot.ref? = none
  deriving DecidableEq

/-- What a slot holds, where addresses are of the kind `π`. -/
inductive Payload (π : Type)
  | ref (p : π)
  | datum (d : Datum)

namespace Payload

variable {π ρ : Type}

/-- Changes the address. -/
def map (f : π → ρ) : Payload π → Payload ρ
  | .ref p => .ref (f p)
  | .datum d => .datum d

/-- The address, if it is one. -/
def ref? : Payload π → Option π
  | .ref p => some p
  | .datum _ => none

/-- What can be seen of a payload without looking at addresses: that it is one, or all of it. -/
def seen : Payload π → Option Datum
  | .ref _ => none
  | .datum d => some d

/-- The payload as a slot. -/
def slot : Payload Address → Slot
  | .ref p => .ref p
  | .datum d => d.slot

end Payload

/-- The payload in a slot. -/
def Slot.payload (s : Slot) : Payload Address :=
  match h : s.ref? with
  | some p => .ref p
  | none => .datum ⟨s, h⟩

/-- What a client may ask of a heap whose cells it knows by the kind of pointer `π`. -/
inductive Operation (π : Type)
  | allocate (count : Nat)
  | allocateLinked (count : Nat)
  | write (p : π) (half : Half) (payload : Payload π)
  | addRoot (p : π)
  | setRoot (id : RootId) (p : π)
  | removeRoot (id : RootId)
  | readRoot (id : RootId)
  | follow (p : π) (half : Half)
  | collect

namespace Operation

variable {π ρ : Type}

/-- Changes the pointers. -/
def map (f : π → ρ) : Operation π → Operation ρ
  | .allocate count => .allocate count
  | .allocateLinked count => .allocateLinked count
  | .write p half payload => .write (f p) half (payload.map f)
  | .addRoot p => .addRoot (f p)
  | .setRoot id p => .setRoot id (f p)
  | .removeRoot id => .removeRoot id
  | .readRoot id => .readRoot id
  | .follow p half => .follow (f p) half
  | .collect => .collect

/-- The pointers that the client uses, stores or roots. -/
def pointers : Operation π → List π
  | .write p _ payload => p :: payload.ref?.toList
  | .addRoot p | .setRoot _ p | .follow p _ => [p]
  | .allocate _ | .allocateLinked _ | .removeRoot _ | .readRoot _ | .collect => []

end Operation

/-- A heap without bounds. -/
structure Ideal where
  /-- The cells, each a payload for each of its slots. -/
  cells : Array (Half → Payload Nat) := #[]
  roots : List (RootId × Nat) := []
  /-- The serial number of the next handle. -/
  next : Nat := 0

namespace Ideal

/-- A cell with nothing in it. -/
def blank : Half → Payload Nat := fun _ => .datum ⟨.empty, rfl⟩

/-- Writes a slot of a cell. -/
def write (i : Ideal) (n : Nat) (half : Half) (payload : Payload Nat) : Ideal :=
  { i with cells := i.cells.modify n fun cell h => if h = half then payload else cell h }

/-- Appends blank cells. -/
def grow (i : Ideal) (count : Nat) : Ideal :=
  { i with cells := i.cells ++ Array.replicate count blank }

/-- The numbers of the next cells. -/
def block (i : Ideal) (count : Nat) : List Nat := List.range' i.cells.size count

/-- Makes each cell refer to the next one. -/
def link (i : Ideal) : List Nat → Ideal
  | n :: m :: rest => link (i.write n .cdr (.ref m)) (m :: rest)
  | _ => i

/-- The cell that a slot refers to. -/
def next? (i : Ideal) (n : Nat) (half : Half) : Option Nat :=
  i.cells[n]?.bind fun cell => (cell half).ref?

/-- What an operation does, with the pointers that the client obtains from it. -/
def perform (i : Ideal) : Operation Nat → Ideal × List Nat
  | .allocate count => (i.grow count, i.block count)
  | .allocateLinked count => ((i.grow count).link (i.block count), i.block count)
  | .write n half payload => (i.write n half payload, [])
  | .addRoot n => ({ i with roots := i.roots ++ [(⟨i.next⟩, n)], next := i.next + 1 }, [])
  | .setRoot id n => ({ i with roots := i.roots.map fun e => if e.1 = id then (id, n) else e }, [])
  | .removeRoot id => ({ i with roots := i.roots.filter (·.1 != id) }, [])
  | .readRoot id => (i, (i.roots.lookup id).toList)
  | .follow n half => (i, (i.next? n half).toList)
  | .collect => (i, [])

/-- The cell at the end of a path from a root. -/
def reach (i : Ideal) (id : RootId) (path : List Half) : Option Nat :=
  path.foldl (fun n half => n.bind (i.next? · half)) (i.roots.lookup id)

/-- What is seen in a slot of the cell at the end of a path from a root. -/
def read (i : Ideal) (id : RootId) (path : List Half) (half : Half) : Option (Option Datum) :=
  (i.reach id path).bind fun n => i.cells[n]?.map fun cell => (cell half).seen

end Ideal

namespace Heap

/-- The cell that a slot refers to. -/
def nextBy? (h : Heap) (p : Address) (half : Half) : Option Address :=
  (h.get? p).bind fun c => (c.slot half).ref?

/-- The address at the end of a path from a root. -/
def reach (h : Heap) (id : RootId) (path : List Half) : Option Address :=
  path.foldl (fun p half => p.bind (h.nextBy? · half)) (h.roots.get? id)

/-- What is seen in a slot of the cell at the end of a path from a root. -/
def read (h : Heap) (id : RootId) (path : List Half) (half : Half) : Option (Option Datum) :=
  (h.reach id path).bind fun p => (h.get? p).map fun c => (c.slot half).payload.seen

end Heap

end Tenure
