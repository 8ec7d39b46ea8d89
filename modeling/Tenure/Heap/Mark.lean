/-
  Tenure — the mark phase.

  * `Heap.trace`: visits addresses in the order in which they were found and marks
    the cells there.  A cell is followed only when it is marked for the first
    time, so cycles end; addresses that name no cell are passed over and noted.
  * `Heap.mark`: traces from the addresses in the roots.
  * `Heap.clearMarks`: takes all marks back.
  * `Heap.Reaches`, `Heap.Rooted`: reachability as a relation, for cells that carry
    no mark yet.
-/
import Tenure.Heap.Basic

namespace Tenure

/-- How many cells a mark phase found, by generation. -/
structure ReachedCells where
  young : Nat := 0
  old : Nat := 0
  deriving DecidableEq, Repr, Inhabited

namespace ReachedCells

/-- All cells found. -/
def total (s : ReachedCells) : Nat := s.young + s.old

/-- Counts the cell at an address. -/
def count (s : ReachedCells) (p : Address) : ReachedCells :=
  if p.isOld then { s with old := s.old + 1 } else { s with young := s.young + 1 }

end ReachedCells

/-- A heap in which cells are being marked. -/
structure Marking where
  heap : Heap
  summary : ReachedCells := {}
  /-- Addresses that named no cell, in the order in which they were met. -/
  dangling : Array Address := #[]
  deriving Inhabited

namespace Heap

/-- Marks what can be reached from a queue of addresses. -/
def trace (queue : List Address) (m : Marking) : Marking :=
  match queue with
  | [] => m
  | p :: rest =>
    match _hc : m.heap.get? p with
    | none => trace rest { m with dangling := m.dangling.push p }
    | some c =>
      if _hm : c.isMarked then trace rest m
      else
        trace (rest ++ c.references)
          { m with heap := m.heap.put p c.mark, summary := m.summary.count p }
termination_by (m.heap.unmarked, queue.length)
decreasing_by
  · exact Prod.Lex.right _ (Nat.lt_succ_self _)
  · exact Prod.Lex.right _ (Nat.lt_succ_self _)
  · exact Prod.Lex.left _ _ (unmarked_put_lt _hc (by simpa using _hm) rfl)

/-- Marks what can be reached from the roots. -/
def mark (h : Heap) : Marking := trace h.roots.addresses { heap := h }

/-- Takes all marks back. -/
def clearMarks (h : Heap) : Heap :=
  { h with active := h.active.map (·.unmark), old := h.old.map (·.unmark) }

/-- An address that refers directly to another one: its cell holds it. -/
def RefersTo (h : Heap) (p q : Address) : Prop := ∃ c, h.get? p = some c ∧ q ∈ c.references

/-- The addresses of cells that can be reached from some addresses through cells. -/
inductive Reaches (h : Heap) (start : List Address) : Address → Prop
  | start {p} : p ∈ start → h.contains p → Reaches h start p
  | step {p q} : Reaches h start p → h.RefersTo p q → h.contains q → Reaches h start q

/-- The addresses of cells that can be reached from the roots. -/
def Rooted (h : Heap) (p : Address) : Prop := h.Reaches h.roots.addresses p

end Heap

end Tenure
