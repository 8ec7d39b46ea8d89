/-
  Tenure — the heaps that clients can bring about.

  * `Heap.WellFormed`: what holds of every heap between two operations.
  * `Store.Reachable`: the stores that clients can bring about, whatever they write into
    cells, roots and flags.
  * `Reachable.wellFormed`: their heaps are well-formed.
-/
import Tenure.Proofs.Allocation
import Tenure.Proofs.Collection

namespace Tenure

namespace Heap

/-- The settings are consistent, each buffer is within its capacity, and no collection is under
    way. -/
structure WellFormed (h : Heap) : Prop where
  settings : h.settings.Valid
  young : h.active.size ≤ h.settings.youngCapacity
  old : h.old.size ≤ h.settings.oldCapacity
  idle : h.idle = #[]
  relocations : h.relocations = .empty

variable {h h' : Heap}

theorem eq_make_of_make? {settings : Settings} {registry : Nat}
    (hm : make? settings registry = .ok h) : h = .make settings registry := by
  unfold make? at hm
  split at hm
  · cases hm
    rfl
  · cases hm

theorem wellFormed_of_make? {settings : Settings} {registry : Nat}
    (hm : make? settings registry = .ok h) : h.WellFormed := by
  unfold make? at hm
  split at hm
  · rename_i hv
    cases hm
    refine ⟨Settings.inconsistency?_eq_none_iff.1 ?_, Nat.zero_le _, Nat.zero_le _, rfl, rfl⟩
    unfold Settings.validate at hv
    split at hv
    · cases hv
    · assumption
  · cases hm

theorem wellFormed_clearMarks_iff : h.clearMarks.WellFormed ↔ h.WellFormed := by
  constructor
  · rintro ⟨hs, hy, ho, hi, hr⟩
    exact ⟨hs, by simpa [clearMarks] using hy, by simpa [clearMarks] using ho, hi, hr⟩
  · rintro ⟨hs, hy, ho, hi, hr⟩
    exact ⟨hs, by simpa [clearMarks] using hy, by simpa [clearMarks] using ho, hi, hr⟩

namespace WellFormed

theorem mapRoots (hh : h.WellFormed) (f : RootRegistry → RootRegistry) : (h.mapRoots f).WellFormed :=
  ⟨hh.settings, hh.young, hh.old, hh.idle, hh.relocations⟩

theorem mark (hh : h.WellFormed) : h.mark.heap.WellFormed := by
  rw [← wellFormed_clearMarks_iff, clearMarks_mark, wellFormed_clearMarks_iff]
  exact hh

theorem prepared (hh : h.WellFormed) : h.prepared.WellFormed := by
  obtain ⟨hs, hy, ho, hi, -⟩ := (hh.mapRoots (·.purge.1)).mark
  exact ⟨hs, hy, ho, hi, rfl⟩

theorem put (hh : h.WellFormed) (p : Address) (c : Cell) : (h.put p c).WellFormed := by
  obtain ⟨hs, hy, ho, hi, hr⟩ := hh
  unfold Heap.put
  split
  · split
    · exact ⟨hs, by simpa using hy, ho, hi, hr⟩
    · exact ⟨hs, hy, ho, hi, hr⟩
  · exact ⟨hs, hy, by simpa using ho, hi, hr⟩

theorem modify (hh : h.WellFormed) (p : Address) (f : Cell → Cell) : (h.modify p f).WellFormed := by
  unfold Heap.modify
  split
  · exact hh.put p _
  · exact hh

theorem link (hh : h.WellFormed) (block : List Address) : (h.link block).WellFormed := by
  fun_induction Heap.link h block with
  | case1 h p q rest ih => exact ih (hh.modify p _)
  | case2 h block => exact hh

theorem grow (hh : h.WellFormed) {count : Nat} {p : Address} (hroom : count ≤ h.room)
    (hg : h.grow count = .ok (h', p)) : h'.WellFormed := by
  obtain ⟨first, hfirst, hg⟩ := bind_eq_ok_iff.1 hg
  cases hg
  obtain ⟨hs, hy, ho, hi, hr⟩ := hh
  refine ⟨hs, ?_, ho, hi, hr⟩
  rw [room] at hroom
  simp only [Array.size_append, Array.size_replicate]
  omega

/-- A collection leaves the buffers within their capacities, because it has asked for room before
    moving anything. -/
theorem collect (hh : h.WellFormed) {c : Collection} (hc : h.collect = .ok c) :
    c.heap.WellFormed := by
  have hp := hh.prepared
  obtain ⟨-, heap, outcome, rfl, ⟨-, ha, -⟩ | ⟨hroom, hm⟩⟩ := collect_cases hc
  · obtain ⟨hs, hy, ho, hi, hr⟩ := wellFormed_clearMarks_iff.2 hp
    obtain rfl := eq_of_abandon ha
    exact ⟨hs, hy, ho, hi, hr⟩
  · obtain ⟨hyoung, hold, hs, hi, hr⟩ := sizes_move hp.idle hp.relocations hm
    refine ⟨hs ▸ hp.settings, ?_, ?_, hi, hr⟩
    · show heap.active.size ≤ heap.settings.youngCapacity
      rw [hs]
      exact hyoung.trans hp.young
    · show heap.old.size ≤ heap.settings.oldCapacity
      rw [hs, hold, settings_prepared]
      exact hroom

end WellFormed

end Heap

namespace Store

/-- The stores that clients can bring about. -/
inductive Reachable : Store → Prop
  | start {settings registry heap} (values journal) :
    Heap.make? settings registry = .ok heap → Reachable { heap, values, journal }
  /-- What happens to external values does not touch the heap, except that owners of roots go. -/
  | outside {s} (values journal) : Reachable s → Reachable { s with values, journal }
  | release {s} (root : RootLease) :
    Reachable s → Reachable (s.mapHeap (·.mapRoots (·.release root)))
  /-- Slots and flags of a cell are written at will. -/
  | put {s} (p : Address) (c : Cell) : Reachable s → Reachable (s.mapHeap (·.put p c))
  | addRoot {s p id s'} : Reachable s → s.addRoot p = .ok id s' → Reachable s'
  | eraseRoot {s} (id : RootId) : Reachable s → Reachable (s.mapHeap (·.mapRoots (·.erase id)))
  | setRoot {s} (id : RootId) (p : Address) :
    Reachable s → Reachable (s.mapHeap (·.mapRoots (·.set id p)))
  | mark {s} : Reachable s → Reachable s.mark.1
  | clearMarks {s} : Reachable s → Reachable s.clearMarks
  | collect {s result s'} : Reachable s → s.collect = .ok result s' → Reachable s'
  | allocate {s count result s'} : Reachable s → s.allocate count = .ok result s' → Reachable s'
  | allocateLinked {s count result s'} :
    Reachable s → s.allocateLinked count = .ok result s' → Reachable s'

variable {s s' : Store}

theorem wellFormed_collect (hs : s.heap.WellFormed) {result : Except HeapError CollectionSummary}
    (hc : s.collect = .ok result s') : s'.heap.WellFormed := by
  obtain ⟨c, hheap, -⟩ := collect_cases hc
  obtain ⟨roots, hs'⟩ := exists_roots_of_collect hheap hc
  rw [hs']
  exact (hs.collect hheap).mapRoots fun _ => roots

theorem wellFormed_tidied (hs : s.heap.WellFormed) (h : s.Tidied s') : s'.heap.WellFormed := by
  rcases h with ⟨hheap, -⟩ | ⟨event, _, t, hc, hheap, -⟩
  · rw [hheap]
    exact hs
  · rw [hheap]
    exact wellFormed_collect (s := s.log event) hs hc

theorem wellFormed_allocate (hs : s.heap.WellFormed) {count : Nat} {result : Except HeapError Address}
    (ha : s.allocate count = .ok result s') : s'.heap.WellFormed := by
  obtain ⟨t, htidied, ⟨_, _, rfl⟩ | ⟨heap, p, _, _, hroom, hg, rfl⟩⟩ := allocate_cases ha
  · exact wellFormed_tidied hs htidied
  · exact (wellFormed_tidied hs htidied).grow hroom hg

/-- **What clients bring about is well-formed.** -/
theorem Reachable.wellFormed (hs : s.Reachable) : s.heap.WellFormed := by
  induction hs with
  | start _ _ hm => exact Heap.wellFormed_of_make? hm
  | outside _ _ _ ih => exact ih
  | release root _ ih => exact ih.mapRoots (·.release root)
  | put p c _ ih => exact ih.put p c
  | @addRoot _ p _ _ _ ha ih =>
    obtain ⟨-, -, rfl⟩ := addRoot_eq_ok_iff.1 ha
    exact ih.mapRoots (·.insert p)
  | eraseRoot id _ ih => exact ih.mapRoots (·.erase id)
  | setRoot id p _ ih => exact ih.mapRoots (·.set id p)
  | mark _ ih =>
    rw [Store.mark, (logMarking_eq _ _ _ _).1]
    exact ih.mark
  | clearMarks _ ih => exact Heap.wellFormed_clearMarks_iff.2 ih
  | collect _ hc ih => exact wellFormed_collect ih hc
  | allocate _ ha ih => exact wellFormed_allocate ih ha
  | allocateLinked _ hl ih =>
    obtain ⟨_, t, ha, ⟨_, _, _, rfl⟩ | ⟨_, block, _, _, _, rfl⟩⟩ := allocateLinked_cases hl
    · exact wellFormed_allocate ih ha
    · exact (wellFormed_allocate ih ha).link block

end Store

end Tenure
