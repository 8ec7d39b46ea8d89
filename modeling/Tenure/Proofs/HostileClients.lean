/-
  Tenure — hostile clients.

  A client may write addresses without cells into roots and slots, set any flags, and ask
  for blocks of any size.  Requests are answered all the same, buffers stay within their
  capacities, and a collection leaves such addresses as it finds them.

  * `Heap.old_mark_le`: a mark phase counts no more cells than there are.
  * `contains_of_allocateLinked`: the cells that an allocation links are there.
  * `Store.KeepsDangling`: what a collection does to addresses without cells.
  * `exists_keepsDangling`: every collection does this, refused or not.
  * `endures`: all of it, in every store that clients can bring about.
-/
import Tenure.Proofs.Simulation

namespace Tenure

namespace Heap

variable {h : Heap}

theorem old_mark_le (h : Heap) : h.mark.summary.old ≤ h.old.size := by
  have hcount := (counts_trace h.roots.addresses { heap := h }).2
  have hle : markedIn h.mark.heap.old ≤ h.mark.heap.old.size := Array.countP_le_size
  have hsize := congrArg (·.old.size) (clearMarks_mark h)
  simp only [clearMarks, Array.size_map] at hsize
  change h.mark.summary.old + markedIn h.old = 0 + markedIn h.mark.heap.old at hcount
  omega

theorem contains_put (h : Heap) (p : Address) (c : Cell) (q : Address) :
    (h.put p c).contains q = h.contains q := by
  rw [contains, get?_put]
  split
  · rename_i hq
    rw [hq.1]
    exact hq.2.symm
  · rfl

theorem contains_link (h : Heap) (block : List Address) (q : Address) :
    (h.link block).contains q = h.contains q :=
  congr_link (f := fun h => h.contains q) (fun h p c => contains_put h p c q) h block

theorem clean_clearMarks (h : Heap) : h.clearMarks.Clean := by
  constructor
  · intro c hc
    obtain ⟨_, -, rfl⟩ := Array.mem_map.1 hc
    rfl
  · intro c hc
    obtain ⟨_, -, rfl⟩ := Array.mem_map.1 hc
    rfl

end Heap

theorem Slot.mapRef_id (s : Slot) : s.mapRef id = s := by cases s <;> rfl

theorem Cell.mapRefs_id (c : Cell) : c.mapRefs id = c := by
  rw [mapRefs, Slot.mapRef_id, Slot.mapRef_id]

namespace Store

variable {s s' : Store} {count : Nat} {p : Address}

/-! ## Blocks -/

/-- The cells of a new list are there, so all of them are linked. -/
theorem contains_of_allocateLinked (hl : s.allocateLinked count = .ok (.ok p) s') :
    ∃ block, p.block count = .ok block ∧ ∀ q ∈ block, s'.heap.contains q := by
  obtain ⟨r₀, t, ha, ⟨_, -, he, -⟩ | ⟨p', block, rfl, hp, hb, rfl⟩⟩ := allocateLinked_cases hl
  · cases he
  cases hp
  refine ⟨block, hb, fun q hq => ?_⟩
  show (t.heap.link block).contains q
  rw [Heap.contains_link]
  exact Heap.contains_iff.2 ⟨_, blank_of_allocate ha hb hq⟩

/-! ## Addresses without cells -/

/-- No cell is marked, and the roots and cells are those of `s`, or some of them, with the
    addresses in them changed by `f`, which leaves addresses without cells as they are. -/
structure KeepsDangling (s : Store) (f : Address → Address) (s' : Store) : Prop where
  clean : s'.heap.Clean
  dangling : ∀ p, ¬ s.heap.contains p → f p = p
  root : ∀ id q, s'.heap.roots.get? id = some q → ∃ p, s.heap.roots.get? id = some p ∧ f p = q
  cell : ∀ q d, s'.heap.get? q = some d → ∃ p c, s.heap.get? p = some c ∧ f p = q ∧ c.SameBut f d

theorem get?_purged {h : Heap} {id : RootId} {p : Address} (hp : h.purged.roots.get? id = some p) :
    h.roots.get? id = some p := by
  have hpurged : h.purged.roots = { h.roots.without h.roots.released with released := [] } :=
    h.roots.purge_eq
  have hget : h.purged.roots.get? id = (h.roots.without h.roots.released).get? id := by rw [hpurged]; rfl
  rw [hget, RootRegistry.get?_without] at hp
  split at hp
  · cases hp
  · exact hp

/-- A collection that is given up takes the marks back. -/
theorem keepsDangling_of_refused {error : HeapError} (hc : s.collect = .ok (.error error) s') :
    s.KeepsDangling id s' := by
  obtain ⟨hheap', -⟩ := heap_of_refused hc
  refine ⟨?_, fun _ _ => rfl, fun id q hq => ?_, fun q d hd => ?_⟩
  · rw [hheap']
    exact Heap.clean_clearMarks s.heap.prepared
  · have hroots : s.heap.prepared.roots.get? id = some q := by rwa [hheap'] at hq
    rw [Heap.roots_prepared] at hroots
    exact ⟨q, get?_purged hroots, rfl⟩
  · have hcell : s.heap.prepared.clearMarks.get? q = some d := by rwa [hheap'] at hd
    rw [Heap.get?_clearMarks, Heap.get?_prepared] at hcell
    obtain ⟨c, hc, rfl⟩ := Option.map_eq_some_iff.1 hcell
    exact ⟨q, c, hc, rfl, (Slot.mapRef_id _).symm, (Slot.mapRef_id _).symm⟩

theorem keepsDangling_of_finished {report : CollectionSummary} (hc : s.collect = .ok (.ok report) s') :
    ∃ f, s.KeepsDangling f s' := by
  obtain ⟨f, gone, hf, hroots, -⟩ := exists_transfers hc
  refine ⟨f, hf.clean, hf.fixed, fun id q hq => ?_, fun q d hd => ?_⟩
  · rw [hroots, RootRegistry.get?_without, RootRegistry.get?_mapAddresses] at hq
    split at hq
    · cases hq
    · obtain ⟨p, hp, rfl⟩ := Option.map_eq_some_iff.1 hq
      exact ⟨p, get?_purged hp, rfl⟩
  · obtain ⟨p, hp, rfl⟩ := hf.mapsOnto.bijOn.surjOn (Heap.contains_iff.2 ⟨d, hd⟩)
    obtain ⟨c, d', hc, hd', hsame⟩ := hf.mapsOnto.cell p hp
    rw [hd] at hd'
    cases hd'
    exact ⟨p, c, hc, rfl, hsame⟩

/-- **A collection keepsDangling addresses without cells**, whether it succeeds or not. -/
theorem exists_keepsDangling {r : Except HeapError CollectionSummary} (hc : s.collect = .ok r s') :
    ∃ f, s.KeepsDangling f s' := by
  cases r with
  | error error => exact ⟨id, keepsDangling_of_refused hc⟩
  | ok report => exact keepsDangling_of_finished hc

/-! ## All requests -/

/-- **Hostile clients** are answered, unless a total runs over; buffers stay within their
    capacities, and addresses without cells stay as they are. -/
theorem endures (hs : s.Reachable) :
    (s.heap.active.size ≤ s.heap.settings.youngCapacity ∧ s.heap.idle = #[] ∧
        s.heap.old.size ≤ s.heap.settings.oldCapacity ∧ s.heap.relocations = .empty ∧
        s.heap.side.number < 2) ∧
      (∀ count, (allocate count).AnswersUnless s.heap.NearLimit s ∧
        (allocateLinked count).AnswersUnless s.heap.NearLimit s) ∧
      Action.AnswersUnless s.heap.NearLimit Store.collect s ∧
      (s.mark.2.young ≤ s.heap.active.size ∧ s.mark.2.old ≤ s.heap.old.size) ∧
      (∀ count p s', s.allocateLinked count = .ok (.ok p) s' →
        ∃ block, p.block count = .ok block ∧ ∀ q ∈ block, s'.heap.contains q) ∧
      ∀ r s', s.collect = .ok r s' → ∃ f, s.KeepsDangling f s' := by
  have hh := hs.wellFormed
  refine ⟨⟨hh.young, hh.idle, hh.old, hh.relocations, s.heap.side.number_lt⟩, ?_, ?_, ?_, ?_, ?_⟩
  · exact fun count => ⟨answersUnless_allocate hh count, answersUnless_allocateLinked hh count⟩
  · exact answersUnless_collect hh
  · exact ⟨s.heap.young_mark_le, s.heap.old_mark_le⟩
  · exact fun _ _ _ => contains_of_allocateLinked
  · exact fun _ _ => exists_keepsDangling

/-- A store with addresses without cells in roots and slots, and with flags set at random. -/
def hostile : Store where
  heap :=
    { settings := { youngCapacity := 4, oldCapacity := 4, oldHighWater := 0, promotionThreshold := 2 }
      active :=
        #[{ car := .ref ⟨.young 2, 0⟩, cdr := .ref ⟨.young 0, 1⟩,
            flags := { marked := true, survivedTwice := true } },
          { car := .ref ⟨.old, 7⟩, cdr := .ref ⟨.young 1, 0⟩, flags := { promoted := true } }]
      roots :=
        { entries := [(⟨0⟩, ⟨.young 2, 0⟩), (⟨1⟩, ⟨.young 1, 1⟩), (⟨2⟩, ⟨.young 0, 1⟩)], next := 3 } }

theorem reachable_hostile : hostile.Reachable := by
  have hmake : Heap.make? hostile.heap.settings 0 = .ok (.make hostile.heap.settings 0) := rfl
  have hstart : Reachable { heap := .make hostile.heap.settings 0 } := .start {} #[] hmake
  have hblock : Reachable
    { heap := { hostile.heap with active := #[.blank, .blank], roots := .empty 0 } } :=
    hstart.allocate (show allocate 2 _ = .ok (.ok ⟨.young 0, 0⟩) _ from rfl)
  have hcells : Reachable { hostile with heap := { hostile.heap with roots := .empty 0 } } :=
    (hblock.put ⟨.young 0, 0⟩ _).put ⟨.young 0, 1⟩ _
  have hadd : ∀ {s : Store}, s.Reachable → s.heap.roots.next + 1 < Word.limit → ∀ p : Address,
      Reachable (s.mapHeap (·.mapRoots (·.insert p))) :=
    fun hs hlt p => hs.addRoot (addRoot_of_lt hlt p)
  exact hadd (hadd (hadd hcells (by decide) ⟨.young 2, 0⟩) (by decide) ⟨.young 1, 1⟩) (by decide)
    ⟨.young 0, 1⟩

theorem endures_hostile : hostile.Reachable ∧ ¬ hostile.heap.NearLimit ∧
    ∃ r s' f, hostile.collect = .ok r s' ∧ hostile.KeepsDangling f s' ∧ f ⟨.young 1, 0⟩ = ⟨.young 1, 0⟩ := by
  have hfar : ¬ hostile.heap.NearLimit := by
    rw [Heap.NearLimit]
    decide
  obtain ⟨-, -, hcollect, -, -, hkeepsDangling⟩ := endures reachable_hostile
  obtain ⟨r, s', hc⟩ := hcollect.resolve_right fun h => hfar h.1
  obtain ⟨f, hf⟩ := hkeepsDangling r s' hc
  exact ⟨reachable_hostile, hfar, r, s', f, hc, hf, hf.dangling _ (by decide)⟩

end Store

end Tenure
