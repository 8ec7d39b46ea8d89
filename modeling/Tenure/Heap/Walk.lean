/-
  Tenure — walking lists.

  A list is followed from cell to cell through the cdr.  The walk ends at the first
  cell whose cdr holds no address or an address that names no cell.

  * `Heap.walk`: at most so many addresses of a walk.
  * `Heap.walkAll`: all addresses of a walk, or nothing if the walk comes back to a
    cell and never ends.  A heap with `n` cells has no longer walk than `n` that
    ends.
-/
import Tenure.Heap.Basic

namespace Tenure.Heap

/-- The address after `p` on a walk. -/
def next? (h : Heap) (p : Address) : Option Address := (h.get? p).bind (·.cdr.ref?)

/-- The first addresses of the walk from `p`, at most `limit` of them. -/
def walk (h : Heap) : Nat → Address → List Address
  | 0, _ => []
  | limit + 1, p =>
    if h.contains p then
      p :: match h.next? p with
        | some q => walk h limit q
        | none => []
    else []

/-- The number of cells in the heap. -/
def cellCount (h : Heap) : Nat := h.active.size + h.old.size

/-- All addresses of the walk from `p`, if it ends. -/
def walkAll (h : Heap) (p : Address) : Option (List Address) :=
  let steps := h.walk (h.cellCount + 1) p
  if steps.length ≤ h.cellCount then some steps else none

theorem length_walk_le (h : Heap) (limit : Nat) (p : Address) :
    (h.walk limit p).length ≤ limit := by
  induction limit generalizing p with
  | zero => simp [walk]
  | succ limit ih =>
    unfold walk
    split
    · split
      · simpa using ih _
      · simp
    · simp

theorem contains_of_mem_walk {h : Heap} {limit : Nat} {p q : Address} (hq : q ∈ h.walk limit p) :
    h.contains q := by
  induction limit generalizing p with
  | zero => simp [walk] at hq
  | succ limit ih =>
    unfold walk at hq
    split at hq
    · rename_i hp
      rcases List.mem_cons.1 hq with rfl | hq
      · exact hp
      · split at hq
        · exact ih hq
        · cases hq
    · cases hq

end Tenure.Heap
