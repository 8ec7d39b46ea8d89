/-
  Tenure — the references that go with discarded cells.

  * `Heap.held`: how many references to a value the cells at some addresses hold.
  * `Heap.lostYoung`, `Heap.lostOld`: the cells that a collection has not found.
  * `uses_youngGarbage`, `uses_oldGarbage`: the references in the cells that a collection
    hands back are those that these cells held.
  * `count_collect`: a successful collection lowers the count of a value by just these.
-/
import Tenure.Proofs.CollectionReport
import Tenure.Proofs.ReferenceCounts

namespace Tenure

variable {v : ValueId}

theorem Slot.uses_eq (s : Slot) : s.uses v = if s = .value v then 1 else 0 := by
  cases s with
  | value w => simp only [Slot.uses_value, Slot.value.injEq, eq_comm]
  | _ => rfl

/-- References are counted slot by slot. -/
theorem usesIn_filter_eq (good : Cell → Bool) (cells : List Cell) :
    usesIn v (cells.filter good) = cells.countP (fun c => good c && c.car = .value v) +
      cells.countP (fun c => good c && c.cdr = .value v) := by
  induction cells with
  | nil => rfl
  | cons c rest ih =>
    have huses : c.uses v =
        (if c.car = .value v then 1 else 0) + if c.cdr = .value v then 1 else 0 := by
      rw [Cell.uses, Slot.uses_eq, Slot.uses_eq]
    by_cases hg : good c = true
    · simp only [List.filter_cons, hg, if_true, usesIn_cons, List.countP_cons, Bool.true_and,
        decide_eq_true_eq, huses, ih]
      omega
    · rw [Bool.not_eq_true] at hg
      simpa [List.filter_cons, hg, List.countP_cons] using ih

namespace Heap

variable {h : Heap}

/-- How many references to a value the cells at some addresses hold, in their cars and in their
    cdrs. -/
noncomputable def held (h : Heap) (v : ValueId) (ps : Set Address) : Nat :=
  Set.ncard {p | p ∈ ps ∧ ∃ c, h.get? p = some c ∧ c.car = .value v} +
    Set.ncard {p | p ∈ ps ∧ ∃ c, h.get? p = some c ∧ c.cdr = .value v}

/-- The young cells that a collection has not found. -/
def lostYoung (h : Heap) : Set Address := {p | ¬ p.isOld ∧ h.contains p ∧ ¬ h.Found p}

/-- The old cells that a collection has not found. -/
def lostOld (h : Heap) : Set Address := {p | p.isOld ∧ h.contains p ∧ ¬ h.Found p}

theorem Clean.lost_eq (hclean : h.Clean) : h.lostYoung = h.youngGarbage ∧ h.lostOld = h.oldGarbage := by
  simp only [lostYoung, lostOld, youngGarbage, oldGarbage, hclean.found_iff, and_self]

theorem tells_lost (h : Heap) (half : Half) :
    h.Tells (fun c => !c.isMarked && c.slot half = .value v)
      fun p c => ¬ h.purged.Found p ∧ c.slot half = .value v := by
  intro p c d _ _ hunmark hm
  have hslot : d.slot half = c.slot half := by
    have := congrArg (Cell.slot · half) hunmark
    cases half <;> exact this.symm
  show (!d.isMarked && decide (d.slot half = .value v)) = true ↔
    ¬ h.purged.Found p ∧ c.slot half = .value v
  rw [Bool.and_eq_true, Bool.not_eq_true', ← hm, hslot, decide_eq_true_iff, Bool.not_eq_true]

theorem lost_iff {p : Address} {half : Half} :
    (∃ c, h.get? p = some c ∧ ¬ h.Found p ∧ c.slot half = .value v) ↔
      (h.contains p ∧ ¬ h.Found p) ∧ ∃ c, h.get? p = some c ∧ c.slot half = .value v := by
  constructor
  · rintro ⟨c, hc, hp, hs⟩
    exact ⟨⟨contains_iff.2 ⟨c, hc⟩, hp⟩, c, hc, hs⟩
  · rintro ⟨⟨-, hp⟩, c, hc, hs⟩
    exact ⟨c, hc, hp, hs⟩

theorem uses_youngGarbage (hh : h.WellFormed) :
    usesIn v (h.prepared.active.toList.filter (!·.isMarked)) = h.purged.held v h.purged.lostYoung := by
  have key : ∀ half : Half, h.prepared.active.toList.countP
      (fun c => !c.isMarked && c.slot half = .value v) =
        Set.ncard {p | p ∈ h.purged.lostYoung ∧ ∃ c, h.purged.get? p = some c ∧
          c.slot half = .value v} := by
    intro half
    rw [Array.countP_toList, (h.tells_lost half).countP_active hh]
    refine congrArg Set.ncard (Set.ext fun p => ?_)
    exact (and_congr_right fun _ => lost_iff).trans and_assoc.symm
  rw [usesIn_filter_eq, held]
  exact congrArg₂ (· + ·) (key .car) (key .cdr)

theorem uses_oldGarbage (hh : h.WellFormed) {r : Compaction.Result}
    (hr : h.prepared.compacted h.prepared.plan.compacting = .ok r) :
    usesIn v r.dropped.toList =
      if h.prepared.plan.compacting then h.purged.held v h.purged.lostOld else 0 := by
  have key : ∀ half : Half, h.prepared.old.toList.countP
      (fun c => !c.isMarked && c.slot half = .value v) =
        Set.ncard {p | p ∈ h.purged.lostOld ∧ ∃ c, h.purged.get? p = some c ∧
          c.slot half = .value v} := by
    intro half
    rw [Array.countP_toList, (h.tells_lost half).countP_old hh]
    refine congrArg Set.ncard (Set.ext fun p => ?_)
    exact (and_congr_right fun _ => lost_iff).trans and_assoc.symm
  cases hcompacting : h.prepared.plan.compacting with
  | false =>
    rw [hcompacting] at hr
    cases hr
    rfl
  | true =>
    rw [hcompacting] at hr
    have hc : Compaction.compact h.prepared.old h.prepared.relocations = .ok r := hr
    obtain ⟨hperm, hlive, hdead, -⟩ :=
      Compaction.compacted (fun p _ => Relocation.not_contains_empty p) hc
    -- the cells cut off are those without a mark
    have hdropped : r.dropped.toList = (r.kept ++ r.dropped).toList.filter (!·.isMarked) := by
      have hkept : r.kept.toList.filter (!·.isMarked) = [] :=
        List.filter_eq_nil_iff.2 fun c hc => by simp [hlive c (Array.mem_def.2 hc)]
      have hall : r.dropped.toList.filter (!·.isMarked) = r.dropped.toList :=
        List.filter_eq_self.2 fun c hc => by simp [hdead c (Array.mem_def.2 hc)]
      rw [Array.toList_append, List.filter_append, hkept, hall, List.nil_append]
    rw [hdropped, usesIn_perm (hperm.toList.filter _), usesIn_filter_eq, if_pos rfl, held]
    exact congrArg₂ (· + ·) (key .car) (key .cdr)

end Heap

namespace Store

variable {s s' : Store}

/-- **What a successful collection takes from the counts**: one for each slot of the discarded cells
    that held a reference. -/
theorem count_collect {outside : ValueId → Nat} (hs : s.Balanced outside)
    {report : CollectionSummary} (hc : s.collect = .ok (.ok report) s') (v : ValueId) :
    s.values.count v = s'.values.count v + s.heap.purged.held v s.heap.purged.lostYoung +
      if report.oldCollected then s.heap.purged.held v s.heap.purged.lostOld else 0 := by
  obtain ⟨-, c, hheap,
    ⟨_, _, hr, _⟩ | ⟨_, relocations, oldGarbage, youngGarbage, ho, hr, huses, hcount⟩⟩ :=
    collect_references hc
  · cases hr
  cases hr
  have hcollect := Heap.uses_collect_finished (v := v) hheap ho
  obtain ⟨r, e, hr, he, -, -, rfl, rfl, rfl⟩ := Heap.exists_evacuation hheap ho
  obtain ⟨-, -, hgarbage, -⟩ := Evacuation.run_buffers he
  have hyoung : usesIn v e.garbage.toList = _ :=
    (congrArg (usesIn v) (by rw [hgarbage]; simp)).trans (Heap.uses_youngGarbage hs.wellFormed)
  have hold := Heap.uses_oldGarbage (v := v) hs.wellFormed hr
  have hreport : (s.heap.prepared.reportOf s.heap.prepared.plan
      (s.heap.active.size - s.heap.purged.mark.summary.young) r.dropped.size).oldCollected =
        s.heap.prepared.plan.compacting := rfl
  rw [hreport, ← hold, ← hyoung, hcount]
  have := hs.count v
  omega

end Store

end Tenure
