/-
  Tenure — the registered roots.

  A root is a place outside the cells that holds an address, and the collector
  keeps whatever can be reached from it.  Roots are known by a handle that is never
  given out twice, because the address in a root changes when its cell moves.

  * `RootId`: the handle.
  * `RootRegistry`: the roots in the order of their registration, and the handles whose
    owners are gone.
  * `RootLease`: the handle of a root whose owner cannot reach the heap at its end.
    When the owner goes, `RootRegistry.release` only notes it, and the next
    `RootRegistry.purge` takes the root away.
-/
import Tenure.Fault

namespace Tenure

/-- A handle for a registered root. -/
structure RootId where
  serial : Nat
  deriving DecidableEq, Repr, Inhabited

/-- The written form of a handle. -/
def RootId.text (id : RootId) : String := s!"RootId({id.serial})"

/-- A root held by an owner outside the heap.  It remembers the registry that it belongs to,
    since the owner may outlive it. -/
structure RootLease where
  registry : Nat
  id : RootId
  deriving DecidableEq, Repr, Inhabited

/-- The registered roots. -/
structure RootRegistry where
  /-- The number of this registry. -/
  registry : Nat := 0
  /-- The roots in the order of their registration. -/
  entries : List (RootId × Address) := []
  /-- The serial number of the next handle. -/
  next : Nat := 0
  /-- Handles whose owners are gone, in the order in which they went. -/
  released : List RootId := []
  deriving DecidableEq, Repr, Inhabited

namespace RootRegistry

/-- A registry without roots. -/
def empty (registry : Nat) : RootRegistry := { registry }

/-- The address that a root holds. -/
def get? (roots : RootRegistry) (id : RootId) : Option Address := roots.entries.lookup id

/-- Whether a root is registered. -/
def contains (roots : RootRegistry) (id : RootId) : Bool := roots.entries.any (·.1 == id)

/-- The number of roots. -/
def size (roots : RootRegistry) : Nat := roots.entries.length

/-- The addresses in the roots, in the order of registration. -/
def addresses (roots : RootRegistry) : List Address := roots.entries.map (·.2)

/-- The registry with a further root. -/
def insert (roots : RootRegistry) (p : Address) : RootRegistry :=
  { roots with entries := roots.entries ++ [(⟨roots.next⟩, p)], next := roots.next + 1 }

/-- Registers a new root, as long as there are serial numbers. -/
def add (roots : RootRegistry) (p : Address) : Except Fault (RootRegistry × RootId) := do
  let _ ← Word.add roots.next 1
  return (roots.insert p, ⟨roots.next⟩)

/-- Registers a new root for an owner. -/
def lease (roots : RootRegistry) (p : Address) : Except Fault (RootRegistry × RootLease) := do
  let (roots, id) ← roots.add p
  return (roots, ⟨roots.registry, id⟩)

/-- Takes a root away; the others stay in their order. -/
def erase (roots : RootRegistry) (id : RootId) : RootRegistry :=
  { roots with entries := roots.entries.filter (·.1 != id) }

/-- Points a registered root somewhere else. -/
def set (roots : RootRegistry) (id : RootId) (p : Address) : RootRegistry :=
  { roots with entries := roots.entries.map fun e => if e.1 = id then (id, p) else e }

/-- Changes the addresses in all roots. -/
def mapAddresses (f : Address → Address) (roots : RootRegistry) : RootRegistry :=
  { roots with entries := roots.entries.map fun (id, p) => (id, f p) }

/-- Changes addresses in order up to the first that cannot be changed, which is the fault. -/
def changeInOrder (f : Address → Except Fault Address) :
    List (RootId × Address) → List (RootId × Address) × Option Fault
  | [] => ([], none)
  | (id, p) :: rest =>
    match f p with
    | .ok q =>
      let (rest, fault) := changeInOrder f rest
      ((id, q) :: rest, fault)
    | .error fault => ((id, p) :: rest, some fault)

/-- Changes the addresses in all roots by a function that may fault.  The roots before the
    fault stay changed. -/
def changeEach (f : Address → Except Fault Address) : Action RootRegistry Unit := fun roots =>
  match changeInOrder f roots.entries with
  | (entries, none) => .ok () { roots with entries }
  | (entries, some fault) => .error fault { roots with entries }

/-- Notes that the owner of a root is gone.  A handle of another registry means nothing here. -/
def release (roots : RootRegistry) (root : RootLease) : RootRegistry :=
  if root.registry = roots.registry then { roots with released := roots.released ++ [root.id] }
  else roots

/-- Takes away the roots whose owners are gone, and says how many were still registered. -/
def purge (roots : RootRegistry) : RootRegistry × Nat :=
  let step := fun (state : RootRegistry × Nat) (id : RootId) =>
    if state.1.contains id then (state.1.erase id, state.2 + 1) else state
  roots.released.foldl step ({ roots with released := [] }, 0)

/-- A root is registered unless there is no number for the one after it. -/
theorem add_cases (roots : RootRegistry) (p : Address) :
    (roots.next + 1 < Word.limit ∧ roots.add p = .ok (roots.insert p, ⟨roots.next⟩)) ∨
      (Word.limit ≤ roots.next + 1 ∧ roots.add p = .error .additionOverflow) := by
  unfold add Word.add
  split
  · rename_i h
    exact Or.inl ⟨h, rfl⟩
  · rename_i h
    exact Or.inr ⟨Nat.not_lt.1 h, rfl⟩

end RootRegistry

end Tenure
