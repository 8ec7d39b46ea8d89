/-
  Tenure — references that are given up.

  When the last reference to a value goes, a root that the value owned is noted as
  one whose owner is gone, and nothing else in the heap changes.  The roots noted
  are taken away later, all at once.

  * `RootRegistry.releasing`, `RootRegistry.without`: noting roots, and taking them
    away.
  * `purge_eq`: what is left of the roots when those noted are taken away.
  * `GivesUp`: what giving up references does to a store; `givesUp_releaseCells`: giving
    up all that the cells of a buffer hold does this.
  * `write_ends`: what a write gives up.
-/
import Tenure.Store.Basic

namespace Tenure

/-! ## Roots -/

namespace RootRegistry

/-- The roots when the owners of some are gone. -/
def releasing (roots : RootRegistry) (gone : List RootId) : RootRegistry :=
  { roots with released := roots.released ++ gone }

/-- The roots without some of them. -/
def without (roots : RootRegistry) (gone : List RootId) : RootRegistry :=
  { roots with entries := roots.entries.filter fun e => e.1 ∉ gone }

theorem erase_of_not_contains {roots : RootRegistry} {id : RootId} (h : ¬ roots.contains id) :
    roots.erase id = roots := by
  have hall : ∀ e ∈ roots.entries, (e.1 != id) = true := by
    intro e he
    rw [bne_iff_ne]
    rintro rfl
    exact h (List.any_eq_true.2 ⟨e, he, beq_self_eq_true _⟩)
  rw [erase, List.filter_eq_self.2 hall]

theorem without_cons (roots : RootRegistry) (id : RootId) (gone : List RootId) :
    roots.without (id :: gone) = (roots.erase id).without gone := by
  simp only [without, erase, List.filter_filter]
  congr 2
  funext e
  by_cases he : e.1 = id <;> simp [he]

/-- **The roots that are left** when those whose owners are gone are taken away. -/
theorem purge_eq (roots : RootRegistry) :
    roots.purge.1 = { roots.without roots.released with released := [] } := by
  have key : ∀ (gone : List RootId) (state : RootRegistry × Nat),
      (gone.foldl (fun state id =>
        if state.1.contains id then (state.1.erase id, state.2 + 1) else state) state).1 =
        state.1.without gone := by
    intro gone
    induction gone with
    | nil =>
      intro state
      have hall : ∀ e ∈ state.1.entries, decide (e.1 ∉ []) = true := by simp
      rw [List.foldl_nil, without, List.filter_eq_self.2 hall]
    | cons id gone ih =>
      intro state
      rw [List.foldl_cons, ih, without_cons]
      split
      · rfl
      · rename_i h
        rw [erase_of_not_contains h]
  exact key roots.released _

theorem get?_without (roots : RootRegistry) (gone : List RootId) (id : RootId) :
    (roots.without gone).get? id = if id ∈ gone then none else roots.get? id := by
  obtain ⟨registry, entries, next, released⟩ := roots
  show (entries.filter fun e => e.1 ∉ gone).lookup id = if id ∈ gone then none else entries.lookup id
  induction entries with
  | nil => simp
  | cons e rest ih =>
    obtain ⟨key, p⟩ := e
    by_cases hk : key ∈ gone
    · rw [List.filter_cons_of_neg (by simpa using hk), ih]
      split
      · rfl
      · rename_i hid
        have hne : id ≠ key := fun h => hid (h ▸ hk)
        rw [List.lookup_cons, beq_eq_false_iff_ne.2 hne]
    · rw [List.filter_cons_of_pos (by simpa using hk), List.lookup_cons, List.lookup_cons, ih]
      by_cases hid : id = key
      · simp [hid, hk]
      · rw [beq_eq_false_iff_ne.2 hid]

theorem get?_mapAddresses (roots : RootRegistry) (f : Address → Address) (id : RootId) :
    (roots.mapAddresses f).get? id = (roots.get? id).map f := by
  obtain ⟨registry, entries, next, released⟩ := roots
  simp only [get?, mapAddresses]
  induction entries with
  | nil => rfl
  | cons e rest ih =>
    obtain ⟨key, p⟩ := e
    by_cases hid : id = key
    · simp [hid]
    · simp [List.lookup_cons, beq_eq_false_iff_ne.2 hid, ih]

/-- The roots that are left of those that hold what `f` gives for what they held. -/
theorem exists_of_mem_without {roots : RootRegistry} {f : Address → Address} {gone : List RootId}
    {q : Address} (hq : q ∈ ((roots.mapAddresses f).without gone).addresses) :
    ∃ p ∈ roots.addresses, f p = q := by
  obtain ⟨e, he, rfl⟩ := List.mem_map.1 hq
  obtain ⟨e₀, he₀, rfl⟩ := List.mem_map.1 (List.mem_filter.1 he).1
  exact ⟨e₀.2, List.mem_map_of_mem he₀, rfl⟩

end RootRegistry

/-! ## Values -/

/-- Some value made so far owns the root. -/
def Values.Leases (values : Values) (root : RootLease) : Prop :=
  ∃ (i : Nat) (entry : Counted) (name : String),
    values.entries[i]? = some entry ∧ entry.value = .owner name root

/-- A reference less changes a count and no value. -/
theorem Values.leases_of_release {values : Values} {id : ValueId} {root : RootLease}
    (h : (values.release id).1.Leases root) : values.Leases root := by
  obtain ⟨i, entry, name, hi, hv⟩ := h
  unfold Values.release at hi
  split at hi
  · simp only [Array.getElem?_modify] at hi
    split at hi
    · obtain ⟨old, hold, rfl⟩ := Option.map_eq_some_iff.1 hi
      exact ⟨i, old, name, hold, hv⟩
    · exact ⟨i, entry, name, hi, hv⟩
  · exact ⟨i, entry, name, hi, hv⟩

theorem Values.leases_of_release_eq_owner {values : Values} {id : ValueId} {name : String}
    {root : RootLease} (h : (values.release id).2 = some (.owner name root)) :
    values.Leases root := by
  unfold Values.release at h
  split at h
  · rename_i entry hentry
    simp only at h
    split at h
    · exact ⟨id.serial, entry, name, hentry, Option.some.inj h⟩
    · cases h
  · cases h

/-! ## Stores -/

namespace Store

/-- What giving up references does: of the heap only the roots change whose owners are gone, and
    these owners were values of the store. -/
structure GivesUp (s s' : Store) : Prop where
  heap : ∃ gone, s'.heap = s.heap.mapRoots (·.releasing gone) ∧
    ∀ id ∈ gone, s.values.Leases ⟨s.heap.roots.registry, id⟩
  leases : ∀ root, s'.values.Leases root → s.values.Leases root

namespace GivesUp

theorem of_eq {s s' : Store} (hheap : s'.heap = s.heap) (hvalues : s'.values = s.values) :
    s.GivesUp s' where
  heap := ⟨[], by simp [hheap, Heap.mapRoots, RootRegistry.releasing], by simp⟩
  leases _ h := hvalues ▸ h

theorem trans {s s' s'' : Store} (h : s.GivesUp s') (h' : s'.GivesUp s'') : s.GivesUp s'' := by
  obtain ⟨gone, hheap, hgone⟩ := h.heap
  obtain ⟨gone', hheap', hgone'⟩ := h'.heap
  refine ⟨⟨gone ++ gone', ?_, fun id hid => ?_⟩, fun root hr => h.leases root (h'.leases root hr)⟩
  · rw [hheap', hheap]
    simp [Heap.mapRoots, RootRegistry.releasing]
  · rcases List.mem_append.1 hid with hid | hid
    · exact hgone id hid
    · have := h.leases _ (hgone' id hid)
      rwa [hheap] at this

end GivesUp

theorem givesUp_release (s : Store) (id : ValueId) : s.GivesUp (s.release id) := by
  have hleases : ∀ root, (s.release id).values.Leases root → s.values.Leases root := by
    intro root hr
    have hvalues : (s.release id).values = (s.values.release id).1 := by
      unfold release
      split
      · rename_i values hv
        rw [hv]
      · rename_i values value hv
        rw [hv]
        cases value <;> rfl
    exact Values.leases_of_release (hvalues ▸ hr)
  refine ⟨?_, hleases⟩
  have hnone : ∃ gone, s.heap = s.heap.mapRoots (·.releasing gone) ∧
      ∀ id ∈ gone, s.values.Leases ⟨s.heap.roots.registry, id⟩ :=
        (GivesUp.of_eq rfl rfl : s.GivesUp s).heap
  unfold release
  split
  · exact hnone
  · rename_i values value hv
    cases value with
    | plain name => exact hnone
    | file path => exact hnone
    | owner name root =>
      -- a handle of another registry means nothing to this heap
      by_cases hreg : root.registry = s.heap.roots.registry
      · refine ⟨[root.id], ?_, ?_⟩
        · simp [finish, log, mapHeap, Heap.mapRoots, RootRegistry.release, RootRegistry.releasing, hreg]
        · intro i hi
          rw [List.mem_singleton.1 hi, ← hreg]
          exact Values.leases_of_release_eq_owner (by rw [hv])
      · have : (finish (.owner name root) { s with values }).heap = s.heap := by
          simp [finish, log, mapHeap, Heap.mapRoots, RootRegistry.release, hreg]
        rw [this]
        exact hnone

theorem givesUp_releaseSlot (s : Store) (slot : Slot) : s.GivesUp (s.releaseSlot slot) := by
  unfold releaseSlot
  split
  · exact givesUp_release s _
  · exact .of_eq rfl rfl

/-- Giving up what the cells of a buffer hold. -/
theorem givesUp_releaseCells (s : Store) (cells : Array Cell) : s.GivesUp (s.releaseCells cells) := by
  rw [releaseCells, ← Array.foldl_toList]
  induction cells.toList generalizing s with
  | nil => exact .of_eq rfl rfl
  | cons c rest ih =>
    exact ((givesUp_releaseSlot s c.car).trans (givesUp_releaseSlot _ c.cdr)).trans (ih _)

/-- A write stores a cell and gives up what the slot held, or there is no cell and it gives up the
    payload. -/
theorem write_ends {s s' : Store} {p : Address} {half : Half} {payload : Slot}
    (hw : s.write p half payload = .ok () s' ∨ ∃ fault, s.write p half payload = .error fault s') :
    (∃ c, s.heap.get? p = some c ∧
        s' = (s.mapHeap (·.put p (c.store half payload))).releaseSlot (c.slot half)) ∨
      s' = s.releaseSlot payload := by
  unfold write at hw
  split at hw
  · rename_i c hc
    rcases hw with hw | ⟨_, hw⟩
    · cases hw
      exact Or.inl ⟨c, hc, rfl⟩
    · cases hw
  · rcases hw with hw | ⟨_, hw⟩
    · cases hw
    · cases hw
      exact Or.inr rfl

end Store

end Tenure
