/-
  Tenure — the store: a heap with the values that its cells refer to.

  * `Store`: a heap, the external values with their counts, and the journal.
  * `Store.retain`, `Store.release`: one reference to a value more or less.  With
    the last reference the value goes, which may close a file or give up a root.
  * `Store.addRoot`, `Store.leaseRoot`: roots of the heap.
  * `Store.storeSlot`, `Store.storeText`, `Store.copySlot`, `Store.copyCell`,
    `Store.cloneCell`: what writing and copying cells does to the counts.  The cell may be
    in the heap or outside of it, so these functions take a cell and answer with a cell.
-/
import Tenure.Journal

namespace Tenure

/-- A heap, the external values that cells and clients refer to, and what has happened. -/
structure Store where
  heap : Heap
  values : Values := {}
  journal : Array Event := #[]
  deriving Inhabited

namespace Store

/-- Notes an event. -/
def log (event : Event) (s : Store) : Store := { s with journal := s.journal.push event }

/-- Changes the heap. -/
def mapHeap (f : Heap → Heap) (s : Store) : Store := { s with heap := f s.heap }

/-- Makes a new external value, of which the caller holds the one reference. -/
def newValue (value : ExternalValue) (s : Store) : Store × ValueId :=
  let (values, id) := s.values.add value
  ({ s with values }, id)

/-- What happens at the end of a value. -/
def finish (value : ExternalValue) (s : Store) : Store :=
  match value with
  | .plain name => s.log (.valueDestroyed name)
  | .owner name root => (s.mapHeap (·.mapRoots (·.release root))).log (.valueDestroyed name)
  | .file path => s.log (.fileClosed path)

/-- One more reference to a value. -/
def retain (id : ValueId) (s : Store) : Store := { s with values := s.values.retain id }

/-- One reference to a value less. -/
def release (id : ValueId) (s : Store) : Store :=
  match s.values.release id with
  | (values, none) => { s with values }
  | (values, some value) => finish value { s with values }

/-- References for a further copy of a slot. -/
def retainSlot (slot : Slot) (s : Store) : Store :=
  match slot.value? with
  | some id => s.retain id
  | none => s

/-- Gives up what a slot holds. -/
def releaseSlot (slot : Slot) (s : Store) : Store :=
  match slot.value? with
  | some id => s.release id
  | none => s

/-- Gives up what a cell holds, the car first. -/
def releaseCell (c : Cell) (s : Store) : Store := (s.releaseSlot c.car).releaseSlot c.cdr

/-- Gives up what the cells of a buffer hold, in order. -/
def releaseCells (cells : Array Cell) (s : Store) : Store :=
  cells.foldl (fun s c => s.releaseCell c) s

/-- Writes a payload into a slot of a cell.  The payload brings its own reference, and the one
    that was in the slot is given up. -/
def storeSlot (c : Cell) (half : Half) (payload : Slot) (s : Store) : Store × Cell :=
  (s.releaseSlot (c.slot half), c.store half payload)

/-- Writes a text into a slot of a cell.  A text that is there already leaves its buffer. -/
def storeText (c : Cell) (half : Half) (content : String) (s : Store) : Store × Cell :=
  match c.slot half with
  | .string buffer => (s, c.setSlot half (.string (Slot.refill buffer content)))
  | current => (s.releaseSlot current, c.setSlot half (.string content))

/-- Copies a slot over a slot of a cell.  A text goes into the buffer of a text and a reference to
    a value into the place of another one; anything else replaces the slot.  The new reference is
    taken before the old one is given up. -/
def copySlot (c : Cell) (half : Half) (source : Slot) (s : Store) : Store × Cell :=
  match c.slot half, source with
  | .string buffer, .string content => (s, c.setSlot half (.string (Slot.refill buffer content)))
  | .value held, .value id => ((s.retain id).release held, c.setSlot half (.value id))
  | current, _ => ((s.retainSlot source).releaseSlot current, c.setSlot half source)

/-- Copies a cell over a cell: the car, the cdr and then the flags. -/
def copyCell (target source : Cell) (s : Store) : Store × Cell :=
  let (s, target) := s.copySlot target .car source.car
  let (s, target) := s.copySlot target .cdr source.cdr
  (s, { target with flags := source.flags })

/-- A further copy of a cell. -/
def cloneCell (c : Cell) (s : Store) : Store × Cell := ((s.retainSlot c.car).retainSlot c.cdr, c)

/-- Replaces the payload of a slot by another of the same kind.  A payload of another kind is
    refused and given up. -/
def overwriteSlot (c : Cell) (half : Half) (payload : Slot) (s : Store) : Store × Option Cell :=
  match (c.slot half).overwrite? payload with
  | some slot => (s.releaseSlot (c.slot half), some (c.setSlot half slot))
  | none => (s.releaseSlot payload, none)

/-- The written form of a cell. -/
def cellText (s : Store) (c : Cell) : String := c.text s.values.describe

/-- The written form of the heap. -/
def heapText (s : Store) : String := s.heap.text s.values.describe

/-- The cell at an address that must name one. -/
def fetch (p : Address) : Action Store Cell := fun s =>
  match s.heap.get? p with
  | some c => .ok c s
  | none => .error (.dangling p) s

/-- Writes a payload into a slot of the cell at an address that must name one. -/
def write (p : Address) (half : Half) (payload : Slot) : Action Store Unit := fun s =>
  match s.heap.get? p with
  | some c => .ok () ((s.mapHeap (·.put p (c.store half payload))).releaseSlot (c.slot half))
  | none => .error (.dangling p) (s.releaseSlot payload)

/-- Registers a root on an address. -/
def addRoot (p : Address) : Action Store RootId := fun s =>
  match s.heap.roots.add p with
  | .ok (roots, id) => .ok id (s.mapHeap (·.mapRoots fun _ => roots))
  | .error fault => .error fault s

/-- Registers a root on an address for an owner. -/
def leaseRoot (p : Address) : Action Store RootLease := fun s =>
  match s.heap.roots.lease p with
  | .ok (roots, root) => .ok root (s.mapHeap (·.mapRoots fun _ => roots))
  | .error fault => .error fault s

theorem addRoot_of_lt {s : Store} (h : s.heap.roots.next + 1 < Word.limit) (p : Address) :
    s.addRoot p = .ok ⟨s.heap.roots.next⟩ (s.mapHeap (·.mapRoots (·.insert p))) := by
  unfold addRoot
  obtain ⟨-, hadd⟩ | ⟨hle, -⟩ := s.heap.roots.add_cases p
  · rw [hadd]
    rfl
  · exact absurd h (Nat.not_lt.2 hle)

theorem addRoot_eq_ok_iff {s s' : Store} {p : Address} {id : RootId} : s.addRoot p = .ok id s' ↔
    s.heap.roots.next + 1 < Word.limit ∧ id = ⟨s.heap.roots.next⟩ ∧
      s' = s.mapHeap (·.mapRoots (·.insert p)) := by
  constructor
  · intro h
    unfold addRoot at h
    obtain ⟨hlt, hadd⟩ | ⟨-, hadd⟩ := s.heap.roots.add_cases p
    · rw [hadd] at h
      cases h
      exact ⟨hlt, rfl, rfl⟩
    · rw [hadd] at h
      cases h
  · rintro ⟨hlt, rfl, rfl⟩
    exact addRoot_of_lt hlt p

/-- A root that is not registered changes nothing. -/
theorem addRoot_of_le {s : Store} (h : Word.limit ≤ s.heap.roots.next + 1) (p : Address) :
    s.addRoot p = .error .additionOverflow s := by
  unfold addRoot
  obtain ⟨hlt, -⟩ | ⟨-, hadd⟩ := s.heap.roots.add_cases p
  · exact absurd h (Nat.not_le.2 hlt)
  · rw [hadd]

/-- A root for an owner is like any other. -/
theorem leaseRoot_eq_ok_iff {s s' : Store} {p : Address} {root : RootLease} :
    s.leaseRoot p = .ok root s' ↔ s.heap.roots.next + 1 < Word.limit ∧
      root = ⟨s.heap.roots.registry, ⟨s.heap.roots.next⟩⟩ ∧
        s' = s.mapHeap (·.mapRoots (·.insert p)) := by
  unfold leaseRoot RootRegistry.lease
  obtain ⟨hlt, hadd⟩ | ⟨hle, hadd⟩ := s.heap.roots.add_cases p
  · rw [hadd]
    constructor
    · intro h
      cases h
      exact ⟨hlt, rfl, rfl⟩
    · rintro ⟨-, rfl, rfl⟩
      rfl
  · rw [hadd]
    constructor
    · intro h
      cases h
    · exact fun h => absurd h.1 (Nat.not_lt.2 hle)

theorem storeText_eq (s : Store) (c : Cell) (half : Half) (content : String) :
    s.storeText c half content = (s.releaseSlot (c.slot half), c.setSlot half (.string content)) := by
  unfold storeText
  split
  · rename_i hslot
    rw [Slot.refill_eq, hslot]
    rfl
  · rfl

theorem copySlot_eq (s : Store) (c : Cell) (half : Half) (source : Slot) :
    s.copySlot c half source =
      ((s.retainSlot source).releaseSlot (c.slot half), c.setSlot half source) := by
  unfold copySlot
  split
  · rename_i hslot
    rw [Slot.refill_eq, hslot]
    rfl
  · rename_i hslot
    rw [hslot]
    rfl
  · rfl

/-- Gives up a heap with all that its cells hold, the two young buffers first. -/
def dropHeap (s : Store) : Store :=
  let (first, second) :=
    match s.heap.side with
    | .first => (s.heap.active, s.heap.idle)
    | .second => (s.heap.idle, s.heap.active)
  let old := s.heap.old
  ((s.releaseCells first).releaseCells second).releaseCells old

/-- Puts an empty heap in the place of the heap, which is given up.  The roots are those of a
    new registry. -/
def renew (s : Store) : Store :=
  { s.dropHeap with heap := .make s.heap.settings (s.heap.roots.registry + 1) }

end Store

end Tenure
