/-
  Tenure — what a successful collection preserves.

  * `collect_relocates`: on a heap without marks, everything that the roots reach is
    found again, at other addresses.
  * `total_report`: every young cell is reported once, and once more if it carried a mark
    when the collection started.
  * `collect_preserves_iff`: on a heap with marks, exactly when everything that the roots
    reach is found again and every young cell is reported once.
-/
import Mathlib.Data.List.Permutation
import Tenure.Proofs.Collection

namespace Tenure

namespace Store

variable {s s' : Store} {report : CollectionSummary}

/-- Whether the collection succeeds and leaves what passes a check. -/
def collectPasses (s : Store) (check : CollectionSummary → Store → Bool) : Bool :=
  match s.collect with
  | .ok (.ok report) s' => check report s'
  | _ => false

/-- A collection that succeeds, from its evaluation. -/
theorem exists_collect (s : Store) (check : CollectionSummary → Store → Bool)
    (h : s.collectPasses check = true) :
    ∃ report s', s.collect = .ok (.ok report) s' ∧ check report s' = true := by
  unfold collectPasses at h
  split at h
  · rename_i report s' hc
    exact ⟨report, s', hc, h⟩
  · cases h

/-- If a collection keeps all that the roots reach, then nothing is lost. -/
theorem relocates_of_keeps (hd : s.heap.purged.NoDangling) {kept : Set Address}
    {f : Address → Address} {gone : List RootId} (hr : Heap.MapsOnto kept s.heap.purged f s'.heap)
    (hroots : s'.heap.roots = (s.heap.purged.roots.mapAddresses f).without gone)
    (hk : ∀ p, s.heap.purged.Rooted p → p ∈ kept) :
    Heap.Relocates s.heap.purged f s'.heap ∧ s'.heap.NoDangling := by
  have haddresses : ∀ q ∈ s'.heap.roots.addresses, ∃ p ∈ s.heap.purged.roots.addresses, f p = q := by
    intro q hq
    rw [hroots] at hq
    exact RootRegistry.exists_of_mem_without hq
  refine ⟨hr.relocates hd hk haddresses fun id q hq => ?_, hr.noDangling hd hk haddresses⟩
  rw [hroots, RootRegistry.get?_without, RootRegistry.get?_mapAddresses] at hq
  split at hq
  · cases hq
  · obtain ⟨p, hp, rfl⟩ := Option.map_eq_some_iff.1 hq
    exact ⟨p, hp, rfl⟩

/-! ## Heaps without marks -/

theorem noDangling_of_collect (hclean : s.heap.Clean) (hd : s.heap.purged.NoDangling)
    (hc : s.collect = .ok (.ok report) s') : s'.heap.NoDangling := by
  obtain ⟨f, gone, hr, -, hroots, -⟩ := exists_mapsOnto hc
  exact (relocates_of_keeps hd hr hroots fun p hp => Heap.Clean.keeps hclean hp).2

/-- **What the roots reach survives a collection**, at other addresses, cycles and shared cells
    included.  A root goes only if the value that owned it was discarded. -/
theorem collect_relocates (hclean : s.heap.Clean) (hd : s.heap.purged.NoDangling)
    (hc : s.collect = .ok (.ok report) s') :
    ∃ f, Heap.Relocates s.heap.purged f s'.heap ∧
      (∀ id p, s.heap.purged.roots.get? id = some p → s'.heap.roots.get? id = some (f p) ∨
        (s'.heap.roots.get? id = none ∧ s.values.Leases ⟨s.heap.roots.registry, id⟩)) ∧
      s'.heap.NoDangling ∧ s'.heap.Clean := by
  obtain ⟨f, gone, hr, hclean', hroots, hgone⟩ := exists_mapsOnto hc
  have hkeeps : ∀ p, s.heap.purged.Rooted p → s.heap.purged.Keeps report.oldCollected p :=
    fun p hp => Heap.Clean.keeps hclean hp
  obtain ⟨hrel, hd'⟩ := relocates_of_keeps hd hr hroots hkeeps
  refine ⟨f, hrel, fun id p hp => ?_, hd', hclean'⟩
  rw [hroots, RootRegistry.get?_without, RootRegistry.get?_mapAddresses, hp]
  split
  · rename_i hid
    exact Or.inr ⟨rfl, hgone id hid⟩
  · exact Or.inl rfl

/-- A store with a cycle through both generations, a cell that two others share, a stale address
    in a dead old cell, and a root whose owner is held by garbage. -/
def tangled : Store where
  heap :=
    { settings := { youngCapacity := 8, oldCapacity := 8, oldHighWater := 1, promotionThreshold := 2 }
      active := #[.cons (.ref ⟨.old, 1⟩) (.ref ⟨.young 0, 0⟩), .cons (.value ⟨0⟩) .empty,
        { car := .string "shared", cdr := .ref ⟨.young 0, 0⟩, flags := { survivedOnce := true } }]
      old := #[.cons (.ref ⟨.young 1, 7⟩) .empty, .cons (.ref ⟨.young 0, 2⟩) (.int 7)]
      roots :=
        { entries := [(⟨0⟩, ⟨.young 0, 0⟩), (⟨1⟩, ⟨.young 0, 2⟩), (⟨2⟩, ⟨.young 0, 2⟩)], next := 3 } }
  values := ⟨#[⟨.owner "procedure" ⟨0, ⟨2⟩⟩, 1⟩]⟩

theorem collect_relocates_tangled : tangled.heap.Clean ∧ tangled.heap.purged.NoDangling ∧
    ∃ report s', tangled.collect = .ok (.ok report) s' ∧ report.oldCollected ∧ report.promoted = 1 ∧
      ∃ f, Heap.Relocates tangled.heap.purged f s'.heap ∧ s'.heap.NoDangling ∧ s'.heap.Clean := by
  have hclean : tangled.heap.Clean := by
    constructor <;> decide
  have hd : tangled.heap.purged.NoDangling :=
    Heap.noDangling_of_closed [⟨.young 0, 0⟩, ⟨.young 0, 2⟩, ⟨.old, 1⟩] (by decide) (by decide)
  obtain ⟨report, s', hc, hcheck⟩ := exists_collect tangled
    (fun report _ => report.oldCollected ∧ report.promoted = 1) (by cbv)
  obtain ⟨hcollected, hpromoted⟩ := of_decide_eq_true hcheck
  obtain ⟨f, hrel, -, hd', hclean'⟩ := collect_relocates hclean hd hc
  exact ⟨hclean, hd, report, s', hc, hcollected, hpromoted, f, hrel, hd', hclean'⟩

/-! ## Heaps with marks -/

/-- What a collection is to achieve by an address map: what the roots reach is found again, under
    addresses that no other cell has, and every young cell is reported once. -/
structure Preserves (s : Store) (report : CollectionSummary) (f : Address → Address) (s' : Store) :
    Prop where
  relocates : Heap.Relocates s.heap.purged f s'.heap
  apart : Set.InjOn f
    ({p | s.heap.purged.Rooted p} ∪ {p | s.heap.purged.Keeps report.oldCollected p})
  noDangling : s'.heap.NoDangling
  total : report.survivors + report.promoted + report.reclaimed = s.heap.active.size

/-- A young cell with a mark is counted as moved and, unlike the cells that the mark phase finds,
    as reclaimed too. -/
theorem total_report (hc : s.collect = .ok (.ok report) s') :
    report.survivors + report.promoted + report.reclaimed =
      s.heap.active.size + Heap.markedIn s.heap.active := by
  obtain ⟨_, _, _, _, _, hheap, ho, -⟩ := exists_finished hc
  obtain ⟨-, heap, outcome, rfl, ⟨-, -, rfl⟩ | ⟨-, hm⟩⟩ := Heap.collect_cases hheap
  · cases ho
  obtain ⟨r, e, -, -, hle, -, rfl⟩ := Heap.move_cases hm
  cases ho
  have hyoung : s.heap.purged.mark.summary.young + Heap.markedIn s.heap.active =
      Heap.markedIn s.heap.prepared.active := s.heap.purged.young_mark
  have hmoved := (Evacuation.length_staying_add_leaving s.heap.settings.promotionThreshold
    s.heap.prepared.active.toList).trans
      (show _ = Heap.markedIn s.heap.prepared.active from Array.countP_toList)
  rw [Heap.size_active_prepared] at hle
  simp only [Heap.reportOf, Heap.settings_prepared, Heap.size_active_prepared]
  omega

/-- **When a collection preserves what the roots reach**, whatever marks there are: no young cell
    carries a mark, and what the roots reach is marked or found by the mark phase, which does not
    look behind a mark, or is old in a buffer that is left as it is. -/
theorem collect_preserves_iff (hd : s.heap.purged.NoDangling)
    (hc : s.collect = .ok (.ok report) s') :
    ∃ f, Heap.MapsOnto {p | s.heap.purged.Keeps report.oldCollected p} s.heap.purged f s'.heap ∧
      (s.Preserves report f s' ↔ (∀ c ∈ s.heap.active, c.isMarked = false) ∧
        ∀ p, s.heap.purged.Rooted p → s.heap.purged.Keeps report.oldCollected p) := by
  obtain ⟨f, gone, hr, -, hroots, -⟩ := exists_mapsOnto hc
  have htotal := total_report hc
  have hzero : Heap.markedIn s.heap.active = 0 ↔ ∀ c ∈ s.heap.active, c.isMarked = false := by
    rw [Heap.markedIn, Array.countP_eq_zero]
    simp
  refine ⟨f, hr, fun hp => ⟨hzero.1 ?_, fun p hp' => ?_⟩, ?_⟩
  · have := hp.total
    omega
  · exact hr.kept_of_relocates hp.relocates hp.apart hp'
  · rintro ⟨hyoung, hkeeps⟩
    obtain ⟨hrel, hd'⟩ := relocates_of_keeps hd hr hroots hkeeps
    have happart : {p | s.heap.purged.Rooted p} ∪ {p | s.heap.purged.Keeps report.oldCollected p} =
        {p | s.heap.purged.Keeps report.oldCollected p} := Set.union_eq_right.2 hkeeps
    refine ⟨hrel, ?_, hd', ?_⟩
    · rw [happart]
      exact hr.bijOn.injOn
    · rw [htotal, hzero.2 hyoung, Nat.add_zero]

/-- A store whose root leads to a marked cell, and only through it to another one. -/
def shadowed : Store where
  heap :=
    { settings := { youngCapacity := 8, oldCapacity := 8, oldHighWater := 0, promotionThreshold := 2 }
      active := #[{ car := .ref ⟨.young 0, 1⟩, flags := { marked := true } }, .blank]
      roots := { entries := [(⟨0⟩, ⟨.young 0, 0⟩)], next := 1 } }

theorem noDangling_shadowed : shadowed.heap.purged.NoDangling :=
  Heap.noDangling_of_closed [⟨.young 0, 0⟩, ⟨.young 0, 1⟩] (by decide) (by decide)

theorem collect_preserves_iff_shadowed : shadowed.heap.purged.NoDangling ∧
    ∃ report s', shadowed.collect = .ok (.ok report) s' ∧
      ∃ f, Heap.MapsOnto {p | shadowed.heap.purged.Keeps report.oldCollected p}
          shadowed.heap.purged f s'.heap ∧
        (shadowed.Preserves report f s' ↔ (∀ c ∈ shadowed.heap.active, c.isMarked = false) ∧
          ∀ p, shadowed.heap.purged.Rooted p →
            shadowed.heap.purged.Keeps report.oldCollected p) := by
  obtain ⟨report, s', hc, -⟩ := exists_collect shadowed (fun _ _ => true) (by cbv)
  exact ⟨noDangling_shadowed, report, s', hc, collect_preserves_iff noDangling_shadowed hc⟩

/-- Behind a mark that was left over nothing is marked: the root is left with a cell that holds an
    address without a cell, and the report counts a cell twice. -/
theorem not_noDangling_collect_shadowed : shadowed.heap.purged.NoDangling ∧
    ∃ report s', shadowed.collect = .ok (.ok report) s' ∧ ¬ s'.heap.NoDangling ∧
      report.survivors + report.promoted + report.reclaimed ≠ shadowed.heap.active.size := by
  refine ⟨noDangling_shadowed, ?_⟩
  obtain ⟨report, s', hc, hcheck⟩ := exists_collect shadowed
    (fun report s' => s'.heap.roots.addresses = [⟨.young 1, 0⟩] ∧
      s'.heap.get? ⟨.young 1, 0⟩ = some
        { car := .ref ⟨.young 0, 1⟩, flags := { survivedOnce := true } } ∧
      ¬ s'.heap.contains ⟨.young 0, 1⟩ ∧
      report.survivors + report.promoted + report.reclaimed = 3) (by cbv)
  obtain ⟨hroots, hcell, hfree, htotal⟩ := of_decide_eq_true hcheck
  refine ⟨report, s', hc, fun hd => hfree (hd.cell ⟨.young 1, 0⟩ _ (hd.rooted_root ?_) ?_), ?_⟩
  · rw [hroots]
    exact List.mem_singleton.2 rfl
  · exact ⟨_, hcell, by decide⟩
  · rw [htotal]
    decide

end Store

end Tenure
