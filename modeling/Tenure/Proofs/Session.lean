/-
  Tenure — sessions of a client.

  A client works with a store and, in thought, with an ideal heap.  It asks the same
  of both, and what the store refuses it does not ask of the ideal heap.  It uses
  only pointers that it has obtained since the last collection, each of which stands
  for a cell of the ideal heap as well.

  * `Store.perform`: the operations of a client on a store.
  * `Session`, `Session.Runs`: how far a client has come, and the sessions that it can
    bring about.
-/
import Tenure.Proofs.Ideal
import Tenure.Proofs.ReachableStores

namespace Tenure

/-- The pointers to the cells of a block that was asked for. -/
def Store.blockPointers (count : Nat) :
    Except HeapError Address → Action Store (Except HeapError (List Address))
  | .error error => return .error error
  | .ok p => return .ok (← p.block count)

/-- What an operation does to a store, with the pointers that the client obtains from it: those of
    all new cells, the one in a root, or the one in a slot. -/
def Store.perform : Operation Address → Action Store (Except HeapError (List Address))
  | .allocate count => do blockPointers count (← allocate count)
  | .allocateLinked count => do blockPointers count (← allocateLinked count)
  | .write p half payload => do
    write p half payload.slot
    return .ok []
  | .addRoot p => do
    let _ ← addRoot p
    return .ok []
  | .setRoot id p => do
    modify (·.mapHeap (·.mapRoots (·.set id p)))
    return .ok []
  | .removeRoot id => do
    modify (·.mapHeap (·.mapRoots (·.erase id)))
    return .ok []
  | .readRoot id => return .ok ((← get).heap.roots.get? id).toList
  | .follow p half => do
    let c ← fetch p
    return .ok (c.slot half).ref?.toList
  | .collect => do
    match ← collect with
    | .error error => return .error error
    | .ok _ => return .ok []

/-- How far a client has come. -/
structure Session where
  store : Store
  ideal : Ideal := {}
  /-- The pointers obtained since the last collection, each with the ideal cell that it is for. -/
  held : List (Address × Nat) := []

namespace Session

/-- The session after an operation.  If cells were moved, the pointers held so far are worthless. -/
def after (σ : Session) (store : Store) (ideal : Ideal) (obtained : List (Address × Nat)) :
    Session where
  store := store
  ideal := ideal
  held :=
    (if store.heap.counters.youngCollections = σ.store.heap.counters.youngCollections then σ.held
      else []) ++ obtained

/-- Asks for an operation, if its pointers are held.  A session that meets a fault is over. -/
def step? (σ : Session) (op : Operation (Address × Nat)) : Option Session :=
  if ∀ x ∈ op.pointers, x ∈ σ.held then
    match σ.store.perform (op.map (·.1)) with
    | .ok (.ok obtained) store =>
      let answer := σ.ideal.perform (op.map (·.2))
      some (σ.after store answer.1 (obtained.zip answer.2))
    | .ok (.error _) store => some (σ.after store σ.ideal [])
    | .error _ _ => none
  else none

/-- The sessions that a client can bring about. -/
inductive Runs : Session → Prop
  | start {settings registry heap values} (journal) :
    Heap.make? settings registry = .ok heap → (∀ id, ¬ values.Leases ⟨registry, id⟩) →
      Runs { store := { heap, values, journal } }
  /-- External values come and go.  None of them owns a root, since the client leases none. -/
  | outside {σ values} (journal) :
    Runs σ → (∀ id, ¬ values.Leases ⟨σ.store.heap.roots.registry, id⟩) →
      Runs { σ with store := { σ.store with values, journal } }
  | step {σ σ'} (op : Operation (Address × Nat)) : Runs σ → σ.step? op = some σ' → Runs σ'

end Session

end Tenure
