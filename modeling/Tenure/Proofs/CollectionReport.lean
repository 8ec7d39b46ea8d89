/-
  Tenure — what a collection keeps and what it reports.

  On a heap without marks a collection keeps nothing but what it should, and its report
  gives the numbers of cells that it kept and discarded.

  * `Heap.staying`, `Heap.leaving`, `Heap.keptOld`: the young cells that the roots reach,
    by what is due to them, and the old cells that are kept.
  * `Heap.keeps_iff`, `Transfers.bijOn_young`, `Transfers.bijOn_old`: they are what the
    two buffers hold afterwards.
  * `report_exact`: the numbers.
  * `collect_exact`: both for a collection of a store.
-/
import Tenure.Proofs.Preservation
import Tenure.Proofs.RefusedCollections

namespace Tenure

namespace Heap

variable {h h' : Heap}

/-- The young cells that the roots reach and that stay young. -/
def staying (h : Heap) : Set Address :=
  {p | ¬ p.isOld ∧ ∃ c, h.get? p = some c ∧ h.Rooted p ∧
    c.flags.age + 1 < h.settings.promotionThreshold}

/-- The young cells that the roots reach and that are due for the old generation. -/
def leaving (h : Heap) : Set Address :=
  {p | ¬ p.isOld ∧ ∃ c, h.get? p = some c ∧ h.Rooted p ∧
    h.settings.promotionThreshold ≤ c.flags.age + 1}

/-- The old cells that a collection keeps: all, or those that the roots reach. -/
def keptOld (h : Heap) (compacting : Bool) : Set Address :=
  {p | p.isOld ∧ h.contains p ∧ (compacting = true → h.Rooted p)}

/-- The young cells that the roots do not reach. -/
def youngGarbage (h : Heap) : Set Address := {p | ¬ p.isOld ∧ h.contains p ∧ ¬ h.Rooted p}

/-- The old cells that the roots do not reach. -/
def oldGarbage (h : Heap) : Set Address := {p | p.isOld ∧ h.contains p ∧ ¬ h.Rooted p}

/-! ## What is kept -/

theorem Clean.keeps_iff (hclean : h.Clean) {compacting : Bool} {p : Address} :
    h.Keeps compacting p ↔ h.Rooted p ∨ (compacting = false ∧ p.isOld ∧ h.contains p) := by
  rw [Keeps, ← or_assoc, show h.Marks p ∨ _ ↔ h.Rooted p from hclean.found_iff]

/-- The cells that a collection keeps, sorted by what is due to them. -/
theorem Clean.keeps_cases (hclean : h.Clean) {compacting : Bool} {p : Address} {c : Cell}
    (hc : h.get? p = some c) (hp : h.Keeps compacting p) :
    (p.isOld ∧ p ∈ h.keptOld compacting) ∨
      (¬ p.isOld ∧ h.settings.promotionThreshold ≤ c.flags.age + 1 ∧ p ∈ h.leaving) ∨
      (¬ p.isOld ∧ c.flags.age + 1 < h.settings.promotionThreshold ∧ p ∈ h.staying) := by
  have hcontains : h.contains p := contains_iff.2 ⟨c, hc⟩
  rcases hclean.keeps_iff.1 hp with hrooted | ⟨hcompacting, hold, -⟩
  · by_cases hold : p.isOld
    · exact Or.inl ⟨hold, hold, hcontains, fun _ => hrooted⟩
    by_cases hdue : h.settings.promotionThreshold ≤ c.flags.age + 1
    · exact Or.inr (Or.inl ⟨hold, hdue, hold, c, hc, hrooted, hdue⟩)
    · exact Or.inr (Or.inr ⟨hold, Nat.not_le.1 hdue, hold, c, hc, hrooted, Nat.not_le.1 hdue⟩)
  · exact Or.inl ⟨hold, hold, hcontains, fun h => by rw [hcompacting] at h; cases h⟩

theorem Clean.keeps_of_keptOld (hclean : h.Clean) {compacting : Bool} {p : Address}
    (hp : p ∈ h.keptOld compacting) : h.Keeps compacting p := by
  obtain ⟨hold, hcontains, hrooted⟩ := hp
  cases compacting with
  | true => exact hclean.keeps_iff.2 (Or.inl (hrooted rfl))
  | false => exact hclean.keeps_iff.2 (Or.inr ⟨rfl, hold, hcontains⟩)

namespace Transfers

variable {compacting : Bool} {f : Address → Address}

theorem bijOn_young (hf : Transfers h compacting f h') (hclean : h.Clean) :
    Set.BijOn f h.staying {q | h'.contains q ∧ ¬ q.isOld} := by
  have hset : {p | h.Keeps compacting p} ∩ Set.preimage f
    {q | h'.contains q ∧ ¬ q.isOld} = h.staying := by
    ext p
    constructor
    · rintro ⟨hp, -, hyoung⟩
      obtain ⟨c, -, hc, -⟩ := hf.mapsOnto.cell p hp
      rw [hf.isOld p c hc hp, not_or, Cell.isDue, decide_eq_true_iff] at hyoung
      rcases hclean.keeps_cases hc hp with ⟨hold, -⟩ | ⟨-, hdue, -⟩ | ⟨-, -, hstay⟩
      · exact absurd hold hyoung.1
      · exact absurd hdue hyoung.2
      · exact hstay
    · rintro ⟨hyoung, c, hc, hrooted, hdue⟩
      have hp : h.Keeps compacting p := hclean.keeps_iff.2 (Or.inl hrooted)
      refine ⟨hp, hf.mapsOnto.bijOn.mapsTo hp, ?_⟩
      rw [hf.isOld p c hc hp, Cell.isDue, decide_eq_true_iff]
      exact fun h => h.elim hyoung (Nat.not_le.2 hdue)
  rw [← hset]
  exact hf.mapsOnto.bijOn.subset_right fun q hq => hq.1

theorem bijOn_old (hf : Transfers h compacting f h') (hclean : h.Clean) :
    Set.BijOn f (h.leaving ∪ h.keptOld compacting) {q | h'.contains q ∧ q.isOld} := by
  have hset : {p | h.Keeps compacting p} ∩ Set.preimage f {q | h'.contains q ∧ q.isOld} =
      h.leaving ∪ h.keptOld compacting := by
    ext p
    constructor
    · rintro ⟨hp, -, hold⟩
      obtain ⟨c, -, hc, -⟩ := hf.mapsOnto.cell p hp
      rw [hf.isOld p c hc hp, Cell.isDue, decide_eq_true_iff] at hold
      rcases hclean.keeps_cases hc hp with ⟨-, hkept⟩ | ⟨-, -, hleave⟩ | ⟨hyoung, hdue, -⟩
      · exact Or.inr hkept
      · exact Or.inl hleave
      · exact absurd hold (not_or.2 ⟨hyoung, Nat.not_le.2 hdue⟩)
    · rintro (⟨-, c, hc, hrooted, hdue⟩ | hkept)
      · have hp : h.Keeps compacting p := hclean.keeps_iff.2 (Or.inl hrooted)
        exact ⟨hp, hf.mapsOnto.bijOn.mapsTo hp, (hf.isOld p c hc hp).2 (Or.inr (decide_eq_true hdue))⟩
      · have hp := hclean.keeps_of_keptOld hkept
        obtain ⟨c, hc⟩ := contains_iff.1 hkept.2.1
        exact ⟨hp, hf.mapsOnto.bijOn.mapsTo hp, (hf.isOld p c hc hp).2 (Or.inl hkept.1)⟩
  rw [← hset]
  exact hf.mapsOnto.bijOn.subset_right fun q hq => hq.1

end Transfers

/-! ## What is reported -/

theorem Clean.tells_staying (hclean : h.Clean) :
    h.Tells (fun c => c.isMarked && !c.isDue h.settings.promotionThreshold)
      fun p c => h.purged.Rooted p ∧ c.flags.age + 1 < h.settings.promotionThreshold := by
  have hpurged : h.purged.Clean := hclean
  intro p c d _ _ hunmark hm
  rw [Bool.and_eq_true, hm, hpurged.found_iff, Bool.not_eq_true', Cell.isDue,
    decide_eq_false_iff_not, Nat.not_le, ← age_eq_of_unmark hunmark]

theorem Clean.tells_garbage (hclean : h.Clean) :
    h.Tells (!·.isMarked) fun p _ => ¬ h.purged.Rooted p := by
  have hpurged : h.purged.Clean := hclean
  intro p c d _ _ _ hm
  show (!d.isMarked) = true ↔ ¬ h.purged.Rooted p
  rw [← hpurged.found_iff, ← hm, Bool.not_eq_true', Bool.not_eq_true]

theorem ncard_youngGarbage (hh : h.WellFormed) (hclean : h.Clean) :
    h.prepared.active.countP (!·.isMarked) = h.purged.youngGarbage.ncard := by
  rw [hclean.tells_garbage.countP_active hh]
  refine congrArg Set.ncard (Set.ext fun p => and_congr_right fun _ => ?_)
  rw [exists_and_right, ← contains_iff]

theorem ncard_oldGarbage (hh : h.WellFormed) (hclean : h.Clean) :
    h.prepared.old.countP (!·.isMarked) = h.purged.oldGarbage.ncard := by
  rw [hclean.tells_garbage.countP_old hh]
  refine congrArg Set.ncard (Set.ext fun p => and_congr_right fun _ => ?_)
  rw [exists_and_right, ← contains_iff]

theorem survivors_prepared (hh : h.WellFormed) (hclean : h.Clean) :
    (Evacuation.staying h.settings.promotionThreshold h.prepared.active.toList).length =
      h.purged.staying.ncard := by
  rw [Evacuation.staying, List.length_map, ← List.countP_eq_length_filter, Array.countP_toList,
    hclean.tells_staying.countP_active hh]
  rfl

theorem promoted_prepared (hh : h.WellFormed) (hclean : h.Clean) :
    (Evacuation.leaving h.settings.promotionThreshold h.prepared.active.toList).length =
      h.purged.leaving.ncard := by
  rw [Evacuation.leaving, List.length_map, ← List.countP_eq_length_filter, Array.countP_toList,
    hclean.tells_due.countP_active hh]
  rfl

theorem size_eq_markedIn_add (cells : Array Cell) :
    cells.size = markedIn cells + cells.countP (!·.isMarked) := by
  simpa using @Array.size_eq_countP_add_countP Cell (·.isMarked) cells

/-- The mark phase has counted all live young cells, since none carried a mark before. -/
theorem reclaimed_prepared (hh : h.WellFormed) (hclean : h.Clean) :
    h.prepared.active.size - h.purged.mark.summary.young = h.purged.youngGarbage.ncard := by
  have hnone : markedIn h.active = 0 := Array.countP_eq_zero.2 fun c hc => by simp [hclean.1 c hc]
  have hcount : h.purged.mark.summary.young + markedIn h.active = markedIn h.prepared.active :=
    h.purged.young_mark
  have hsize := size_eq_markedIn_add h.prepared.active
  rw [ncard_youngGarbage hh hclean] at hsize
  omega

theorem dropped_prepared (hh : h.WellFormed) (hclean : h.Clean) {r : Compaction.Result}
    (hr : h.prepared.compacted h.prepared.plan.compacting = .ok r) :
    r.dropped.size =
      if h.prepared.plan.compacting then h.purged.oldGarbage.ncard else 0 := by
  obtain ⟨hkept, htotal⟩ := size_compacted rfl hr
  have hlive : h.prepared.plan.liveOld = if h.prepared.plan.compacting then
      markedIn h.prepared.old else h.prepared.old.size := rfl
  have hsize := size_eq_markedIn_add h.prepared.old
  rw [ncard_oldGarbage hh hclean] at hsize
  split
  · rename_i hcompacting
    rw [if_pos hcompacting] at hlive
    omega
  · rename_i hcompacting
    rw [if_neg hcompacting] at hlive
    omega

theorem compacting_prepared (hh : h.WellFormed) (hclean : h.Clean) :
    h.prepared.plan.compacting = true ↔ h.settings.oldHighWater < h.old.size ∨
      h.settings.oldCapacity < h.old.size + h.purged.leaving.ncard := by
  have hplan : h.prepared.plan.compacting =
      (h.prepared.settings.oldHighWater < h.prepared.old.size ||
        h.prepared.settings.oldCapacity < h.prepared.old.size + h.prepared.plan.promoting) := rfl
  rw [hplan, promoting_plan, settings_prepared, promoted_prepared hh hclean, size_old_prepared,
    Bool.or_eq_true, decide_eq_true_iff, decide_eq_true_iff]

end Heap

namespace Store

variable {s s' : Store} {report : CollectionSummary}

/-- **The report of a collection is exact.** -/
theorem report_exact (hh : s.heap.WellFormed) (hclean : s.heap.Clean)
    (hc : s.collect = .ok (.ok report) s') :
    (report.oldCollected = true ↔ s.heap.settings.oldHighWater < s.heap.old.size ∨
        s.heap.settings.oldCapacity < s.heap.old.size + s.heap.purged.leaving.ncard) ∧
      report.survivors = s.heap.purged.staying.ncard ∧
      report.promoted = s.heap.purged.leaving.ncard ∧
      report.reclaimed = s.heap.purged.youngGarbage.ncard ∧
      report.oldReclaimed =
        if report.oldCollected then s.heap.purged.oldGarbage.ncard else 0 := by
  obtain ⟨_, _, _, _, _, hheap, ho, -⟩ := exists_finished hc
  obtain ⟨r, e, hr, -, -, -, rfl, -, rfl⟩ := Heap.exists_evacuation hheap ho
  have hsurvivors := Heap.survivors_prepared hh hclean
  have hpromoted := Heap.promoted_prepared hh hclean
  have hreclaimed := Heap.reclaimed_prepared hh hclean
  rw [← Heap.settings_prepared] at hsurvivors hpromoted
  rw [Heap.size_active_prepared] at hreclaimed
  exact ⟨Heap.compacting_prepared hh hclean, hsurvivors, hpromoted, hreclaimed,
    Heap.dropped_prepared hh hclean hr⟩

/-- **A successful collection keeps just what it should** and reports just that: the young cells
    that the roots reach, which stay young or become old by their age, and the old ones, of which
    those that the roots do not reach go in a compaction. -/
theorem collect_exact (hs : s.Reachable) (hclean : s.heap.Clean)
    (hc : s.collect = .ok (.ok report) s') :
    (∃ f, Set.BijOn f s.heap.purged.staying {q | s'.heap.contains q ∧ ¬ q.isOld} ∧
      Set.BijOn f (s.heap.purged.leaving ∪ s.heap.purged.keptOld report.oldCollected)
        {q | s'.heap.contains q ∧ q.isOld} ∧
      ∀ p ∈ s.heap.purged.staying ∪
          (s.heap.purged.leaving ∪ s.heap.purged.keptOld report.oldCollected),
        ∃ c d, s.heap.get? p = some c ∧ s'.heap.get? (f p) = some d ∧ c.SameBut f d) ∧
      (report.oldCollected = true ↔ s.heap.settings.oldHighWater < s.heap.old.size ∨
        s.heap.settings.oldCapacity < s.heap.old.size + s.heap.purged.leaving.ncard) ∧
      report.survivors = s.heap.purged.staying.ncard ∧
      report.promoted = s.heap.purged.leaving.ncard ∧
      report.reclaimed = s.heap.purged.youngGarbage.ncard ∧
      report.oldReclaimed =
        if report.oldCollected then s.heap.purged.oldGarbage.ncard else 0 := by
  have hpurged : s.heap.purged.Clean := hclean
  obtain ⟨f, gone, hf, -, -⟩ := exists_transfers hc
  refine ⟨⟨f, hf.bijOn_young hpurged, hf.bijOn_old hpurged, ?_⟩, report_exact hs.wellFormed hclean hc⟩
  rintro p (⟨-, c, -, hrooted, -⟩ | ⟨-, c, -, hrooted, -⟩ | hkept)
  · exact hf.mapsOnto.cell p (hpurged.keeps_iff.2 (Or.inl hrooted))
  · exact hf.mapsOnto.cell p (hpurged.keeps_iff.2 (Or.inl hrooted))
  · exact hf.mapsOnto.cell p (hpurged.keeps_of_keptOld hkept)

/-- Three young cells: one that is due for the old generation, one that it leads to, and one that
    nothing leads to. -/
def assorted : Store where
  heap :=
    { settings := { youngCapacity := 4, oldCapacity := 4, oldHighWater := 0, promotionThreshold := 2 }
      active := #[{ car := .ref ⟨.young 0, 1⟩, flags := { survivedOnce := true } }, .blank, .blank]
      roots := { entries := [(⟨0⟩, ⟨.young 0, 0⟩)], next := 1 } }

theorem reachable_assorted : assorted.Reachable := by
  have hmake : Heap.make? assorted.heap.settings 0 = .ok (.make assorted.heap.settings 0) := rfl
  have hstart : Reachable { heap := .make assorted.heap.settings 0 } := .start {} #[] hmake
  have hblock : Reachable
      { heap :=
          { assorted.heap with active := #[.blank, .blank, .blank], roots := .empty 0 } } :=
    hstart.allocate (show allocate 3 _ = .ok (.ok ⟨.young 0, 0⟩) _ from rfl)
  have hcell : Reachable { assorted with heap := { assorted.heap with roots := .empty 0 } } :=
    hblock.put ⟨.young 0, 0⟩ _
  exact hcell.addRoot (addRoot_of_lt (by decide) ⟨.young 0, 0⟩)

theorem collect_exact_assorted : assorted.Reachable ∧ assorted.heap.Clean ∧
    ∃ report s', assorted.collect = .ok (.ok report) s' ∧ assorted.heap.purged.staying.ncard = 1 ∧
      assorted.heap.purged.leaving.ncard = 1 ∧ assorted.heap.purged.youngGarbage.ncard = 1 := by
  have hclean : assorted.heap.Clean := by constructor <;> decide
  obtain ⟨report, s', hc, hcheck⟩ := exists_collect assorted
    (fun report _ => report.survivors = 1 ∧ report.promoted = 1 ∧ report.reclaimed = 1) (by cbv)
  obtain ⟨hsurvivors, hpromoted, hreclaimed⟩ := of_decide_eq_true hcheck
  obtain ⟨-, -, hstaying, hleaving, hgarbage, -⟩ := collect_exact reachable_assorted hclean hc
  exact ⟨reachable_assorted, hclean, report, s', hc, hstaying.symm.trans hsurvivors,
    hleaving.symm.trans hpromoted, hgarbage.symm.trans hreclaimed⟩

end Store

end Tenure
