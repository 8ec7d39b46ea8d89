/-
  Tenure — collections that are refused.

  A collection is given up when the old generation cannot take the cells that are due
  for it, and then it leaves everything as it was.  What decides is only what the
  roots reach.

  * `Heap.reachedOld`, `Heap.reachedDue`: the old cells that the roots reach, and the
    young ones among those that they reach that are due for the old generation.
  * `markedCount_prepared`, `promoting_prepared`: the numbers that a collection goes by
    are these.
  * `abandon_prepared`: giving a collection up takes back what it did.
  * `collect_refused_iff`: when a collection is refused, and what it leaves then.
-/
import Mathlib.Data.List.Permutation
import Tenure.Proofs.CellCounts

namespace Tenure

namespace Heap

/-! ## What the roots reach -/

/-- How many old cells the roots reach. -/
noncomputable def reachedOld (h : Heap) : Nat := Set.ncard {p | h.Rooted p ∧ p.isOld}

/-- How many young cells that the roots reach are due for the old generation. -/
noncomputable def reachedDue (h : Heap) : Nat :=
  Set.ncard {p | h.Rooted p ∧ ¬ p.isOld ∧
    ∃ c, h.get? p = some c ∧ h.settings.promotionThreshold ≤ c.flags.age + 1}

variable {h : Heap}

theorem Rooted.contains {p : Address} (hp : h.Rooted p) : h.contains p := by
  cases hp with
  | start _ hc => exact hc
  | step _ _ hc => exact hc

theorem markedCount_prepared (hh : h.WellFormed) (hclean : h.Clean) :
    Compaction.markedCount h.prepared.old = h.purged.reachedOld := by
  have hpurged : h.purged.Clean := hclean
  have htells : h.Tells (·.isMarked) fun p _ => h.purged.Rooted p :=
    fun _ _ _ _ _ _ hm => hm.trans hpurged.found_iff
  rw [reachedOld, Compaction.markedCount, htells.countP_old hh]
  congr 1
  ext p
  constructor
  · rintro ⟨hold, _, -, hp⟩
    exact ⟨hp, hold⟩
  · rintro ⟨hp, hold⟩
    obtain ⟨c, hc⟩ := contains_iff.1 hp.contains
    exact ⟨hold, c, hc, hp⟩

theorem Clean.tells_due (hclean : h.Clean) :
    h.Tells (fun c => c.isMarked && c.isDue h.settings.promotionThreshold)
      fun p c => h.purged.Rooted p ∧ h.settings.promotionThreshold ≤ c.flags.age + 1 := by
  have hpurged : h.purged.Clean := hclean
  intro p c d _ _ hunmark hm
  rw [Bool.and_eq_true, hm, hpurged.found_iff, Cell.isDue, decide_eq_true_iff,
    ← age_eq_of_unmark hunmark]

theorem promoting_prepared (hh : h.WellFormed) (hclean : h.Clean) :
    h.prepared.plan.promoting = h.purged.reachedDue := by
  have hcount : h.prepared.plan.promoting = h.prepared.active.countP
      (fun c => c.isMarked && c.isDue h.settings.promotionThreshold) := by
    rw [← settings_prepared h]
    rfl
  rw [hcount, reachedDue, hclean.tells_due.countP_active hh]
  congr 1
  ext p
  constructor
  · rintro ⟨hyoung, c, hc, hp, hdue⟩
    exact ⟨hp, hyoung, c, hc, hdue⟩
  · rintro ⟨hp, hyoung, c, hc, hdue⟩
    exact ⟨hyoung, c, hc, hp, hdue⟩

/-! ## The decision -/

/-- A collection is given up exactly if what the roots reach does not fit, and then it has counted
    just that: a buffer that need not be compacted has room for all its cells. -/
theorem full_iff (hh : h.WellFormed) (hclean : h.Clean) :
    (h.settings.oldCapacity < h.prepared.plan.liveOld + h.prepared.plan.promoting ↔
        h.settings.oldCapacity < h.purged.reachedOld + h.purged.reachedDue) ∧
      (h.settings.oldCapacity < h.prepared.plan.liveOld + h.prepared.plan.promoting →
        h.refusal =
          .oldExhausted h.purged.reachedOld h.purged.reachedDue h.settings.oldCapacity) := by
  have hlive := markedCount_prepared hh hclean
  have hdue := promoting_prepared hh hclean
  have hle : Compaction.markedCount h.prepared.old ≤ h.prepared.old.size := Array.countP_le_size
  have hplan : h.prepared.plan.liveOld = if h.prepared.plan.compacting then
      Compaction.markedCount h.prepared.old else h.prepared.old.size := rfl
  have hcompacting : h.prepared.plan.compacting =
      (h.prepared.settings.oldHighWater < h.prepared.old.size ||
        h.prepared.settings.oldCapacity < h.prepared.old.size + h.prepared.plan.promoting) := rfl
  cases hc : h.prepared.plan.compacting with
  | true =>
    rw [hc, if_pos rfl, hlive] at hplan
    rw [hplan, hdue]
    exact ⟨Iff.rfl, fun _ => by rw [refusal, hplan, hdue]⟩
  | false =>
    rw [hc, if_neg Bool.false_ne_true] at hplan
    rw [hc, settings_prepared] at hcompacting
    have hroom : ¬ h.settings.oldCapacity < h.prepared.old.size + h.prepared.plan.promoting :=
      of_decide_eq_false (Bool.or_eq_false_iff.1 hcompacting.symm).2
    rw [hplan, ← hlive, ← hdue]
    exact ⟨⟨fun hlt => absurd hlt hroom, fun hlt => by omega⟩, fun hlt => absurd hlt hroom⟩

/-- **Giving a collection up** takes back what it did, but for the roots that it took away. -/
theorem abandon_prepared (hh : h.WellFormed) (hclean : h.Clean) :
    h.prepared.abandon =
      if h.counters.failedCollections + 1 < Word.limit then
        .ok
          { h.purged with
            counters :=
              { h.counters with failedCollections := h.counters.failedCollections + 1 } }
      else .error .additionOverflow := by
  have hback : h.prepared.clearMarks = h.purged := by
    rw [clearMarks_prepared, Clean.clearMarks (h := h.purged) hclean]
    have : h.purged.relocations = .empty := hh.relocations
    rw [← this]
  rw [abandon, hback, counters_prepared, Counters.recordAbandoned, Counters.tally, Word.add]
  by_cases hlimit : h.counters.failedCollections + 1 < Word.limit
  · rw [if_pos hlimit, if_pos hlimit]
  · rw [if_neg hlimit, if_neg hlimit]

/-- A heap whose live cells do not fit. -/
theorem collect_of_full (hh : h.WellFormed) (hclean : h.Clean)
    (hfull : h.settings.oldCapacity < h.purged.reachedOld + h.purged.reachedDue) :
    h.collect =
      if h.counters.failedCollections + 1 < Word.limit then
        .ok (h.collection
          { h.purged with
            counters :=
              { h.counters with failedCollections := h.counters.failedCollections + 1 } }
          (.abandoned
            (.oldExhausted h.purged.reachedOld h.purged.reachedDue h.settings.oldCapacity)))
      else .error .additionOverflow := by
  obtain ⟨hiff, hrefusal⟩ := full_iff hh hclean
  have hplan := hiff.2 hfull
  rw [collect_eq hh.idle, if_pos hplan, abandon_prepared hh hclean, hrefusal hplan]
  split
  · rfl
  · rfl

/-- A heap whose live cells fit. -/
theorem collect_of_room (hh : h.WellFormed) (hclean : h.Clean)
    (hroom : h.purged.reachedOld + h.purged.reachedDue ≤ h.settings.oldCapacity) :
    (∃ heap report relocations oldGarbage youngGarbage, h.collect =
        .ok (h.collection heap (.finished report relocations oldGarbage youngGarbage))) ∨
      h.collect = .error .additionOverflow := by
  rcases hh.collect_answers with ⟨c, hc⟩ | ⟨-, hc⟩
  · obtain ⟨-, heap, outcome, rfl, ⟨hfull, -⟩ | ⟨-, hm⟩⟩ := collect_cases hc
    · exact absurd ((full_iff hh hclean).1.1 hfull) (Nat.not_lt.2 hroom)
    · obtain ⟨r, e, -, -, -, -, rfl⟩ := move_cases hm
      exact Or.inl ⟨_, _, _, _, _, hc⟩
  · exact Or.inr hc

end Heap

namespace Store

theorem collect_of_abandoned {s : Store} {c : Collection} {error : HeapError}
    (hheap : s.heap.collect = .ok c) (ho : c.outcome = .abandoned error) :
    ∃ s', s.collect = .ok (.error error) s' ∧ s'.heap = c.heap ∧ s'.values = s.values := by
  have hstart := logStart_eq { s with heap := c.heap } c
  unfold collect
  rw [hheap]
  simp only [ho]
  exact ⟨_, rfl, hstart.1, hstart.2⟩

theorem collect_of_finished {s : Store} {c : Collection} {report : CollectionSummary}
    {relocations : Nat} {oldGarbage youngGarbage : Array Cell} (hheap : s.heap.collect = .ok c)
    (ho : c.outcome = .finished report relocations oldGarbage youngGarbage) :
    ∃ s', s.collect = .ok (.ok report) s' := by
  unfold collect
  rw [hheap]
  simp only [ho]
  exact ⟨_, rfl⟩

/-- The ways for a collection to end, and what decides between them. -/
theorem collect_outcomes {s : Store} (hh : s.heap.WellFormed) (hclean : s.heap.Clean) :
    (s.heap.settings.oldCapacity < s.heap.purged.reachedOld + s.heap.purged.reachedDue ∧
      ((s.heap.counters.failedCollections + 1 < Word.limit ∧
          ∃ s', s.collect =
              .ok (.error (.oldExhausted s.heap.purged.reachedOld s.heap.purged.reachedDue
                s.heap.settings.oldCapacity)) s' ∧
            s'.heap =
              { s.heap.purged with
                counters :=
                  { s.heap.counters with
                    failedCollections := s.heap.counters.failedCollections + 1 } } ∧
            s'.values = s.values) ∨
        (¬ s.heap.counters.failedCollections + 1 < Word.limit ∧
          s.collect = .error .additionOverflow s))) ∨
      (s.heap.purged.reachedOld + s.heap.purged.reachedDue ≤ s.heap.settings.oldCapacity ∧
        ((∃ report s', s.collect = .ok (.ok report) s') ∨
          s.collect = .error .additionOverflow s)) := by
  by_cases hfull :
      s.heap.settings.oldCapacity < s.heap.purged.reachedOld + s.heap.purged.reachedDue
  · refine Or.inl ⟨hfull, ?_⟩
    have hcollect := Heap.collect_of_full hh hclean hfull
    by_cases hlimit : s.heap.counters.failedCollections + 1 < Word.limit
    · rw [if_pos hlimit] at hcollect
      exact Or.inl ⟨hlimit, collect_of_abandoned hcollect rfl⟩
    · rw [if_neg hlimit] at hcollect
      exact Or.inr ⟨hlimit, collect_of_fault hcollect⟩
  · have hroom := Nat.not_lt.1 hfull
    refine Or.inr ⟨hroom, ?_⟩
    rcases Heap.collect_of_room hh hclean hroom with ⟨_, report, _, _, _, hcollect⟩ | hcollect
    · obtain ⟨s', hs'⟩ := collect_of_finished hcollect rfl
      exact Or.inl ⟨report, s', hs'⟩
    · exact Or.inr (collect_of_fault hcollect)

/-- What a refused collection says and leaves. -/
theorem of_refused {s s' : Store} {error : HeapError} (hh : s.heap.WellFormed)
    (hclean : s.heap.Clean) (hc : s.collect = .ok (.error error) s') :
    s.heap.settings.oldCapacity < s.heap.purged.reachedOld + s.heap.purged.reachedDue ∧
      s.heap.counters.failedCollections + 1 < Word.limit ∧
      error = .oldExhausted s.heap.purged.reachedOld s.heap.purged.reachedDue
        s.heap.settings.oldCapacity ∧
      s'.heap =
        { s.heap.purged with
          counters :=
            { s.heap.counters with
              failedCollections := s.heap.counters.failedCollections + 1 } } ∧
      s'.values = s.values := by
  rcases collect_outcomes hh hclean with
    ⟨hfull, ⟨hlimit, t, ht, hheap, hvalues⟩ | ⟨-, hf⟩⟩ | ⟨-, ⟨report, t, ht⟩ | hf⟩
  · rw [hc] at ht
    cases ht
    exact ⟨hfull, hlimit, rfl, hheap, hvalues⟩
  · rw [hc] at hf
    cases hf
  · rw [hc] at ht
    cases ht
  · rw [hc] at hf
    cases hf

/-- A collection is refused only if what the roots reach does not fit. -/
theorem exists_refused_iff {s : Store} (hh : s.heap.WellFormed) (hclean : s.heap.Clean) :
    (∃ error s', s.collect = .ok (.error error) s') ↔
      s.heap.settings.oldCapacity < s.heap.purged.reachedOld + s.heap.purged.reachedDue ∧
        s.heap.counters.failedCollections + 1 < Word.limit := by
  constructor
  · rintro ⟨error, s', hc⟩
    obtain ⟨hfull, hlimit, -⟩ := of_refused hh hclean hc
    exact ⟨hfull, hlimit⟩
  · rintro ⟨hfull, hlimit⟩
    rcases collect_outcomes hh hclean with ⟨-, ⟨-, t, ht, -⟩ | ⟨hover, -⟩⟩ | ⟨hroom, -⟩
    · exact ⟨_, t, ht⟩
    · exact absurd hlimit hover
    · exact absurd hfull (Nat.not_lt.2 hroom)

theorem room_of_finished {s s' : Store} {report : CollectionSummary} (hh : s.heap.WellFormed)
    (hclean : s.heap.Clean) (hc : s.collect = .ok (.ok report) s') :
    s.heap.purged.reachedOld + s.heap.purged.reachedDue ≤ s.heap.settings.oldCapacity := by
  rcases collect_outcomes hh hclean with ⟨-, ⟨-, t, ht, -⟩ | ⟨-, hf⟩⟩ | ⟨hroom, -⟩
  · rw [hc] at ht
    cases ht
  · rw [hc] at hf
    cases hf
  · exact hroom

theorem answers_collect {s : Store} (hh : s.heap.WellFormed) (hclean : s.heap.Clean) :
    Action.Answers Store.collect s := by
  rcases collect_outcomes hh hclean with
    ⟨-, ⟨-, t, ht, -⟩ | ⟨-, hf⟩⟩ | ⟨-, ⟨report, t, ht⟩ | hf⟩
  · exact .of_ok ht
  · exact Or.inr ⟨s, hf⟩
  · exact .of_ok ht
  · exact Or.inr ⟨s, hf⟩

/-- **When a collection is refused**, and what it leaves then: only if what the roots reach does
    not fit, and everything as it was, apart from the count of such collections and the roots
    whose owners were gone.  Nothing else goes wrong unless a counter runs over. -/
theorem collect_refused_iff {s : Store} (hs : s.Reachable) (hclean : s.heap.Clean) :
    ((∃ error s', s.collect = .ok (.error error) s') ↔
        s.heap.settings.oldCapacity < s.heap.purged.reachedOld + s.heap.purged.reachedDue ∧
          s.heap.counters.failedCollections + 1 < Word.limit) ∧
      (∀ error s', s.collect = .ok (.error error) s' →
        error = .oldExhausted s.heap.purged.reachedOld s.heap.purged.reachedDue
            s.heap.settings.oldCapacity ∧
          s'.heap =
            { s.heap with
              roots :=
                { s.heap.roots with
                  entries := s.heap.roots.entries.filter fun e => e.1 ∉ s.heap.roots.released
                  released := [] }
              counters :=
                { s.heap.counters with
                  failedCollections := s.heap.counters.failedCollections + 1 } } ∧
          s'.values = s.values ∧ s'.heap.relocations = .empty ∧ s'.heap.Clean) ∧
      (∀ report s', s.collect = .ok (.ok report) s' →
        s.heap.purged.reachedOld + s.heap.purged.reachedDue ≤ s.heap.settings.oldCapacity) ∧
      ∀ fault s', s.collect = .error fault s' → fault = .additionOverflow := by
  have hh := hs.wellFormed
  refine ⟨exists_refused_iff hh hclean, ?_, fun _ _ => room_of_finished hh hclean, ?_⟩
  · intro error s' hc
    obtain ⟨-, -, rfl, hheap, hvalues⟩ := of_refused hh hclean hc
    have hpurged : s.heap.roots.purge.1 = _ := s.heap.roots.purge_eq
    rw [hheap]
    refine ⟨rfl, ?_, hvalues, hh.relocations, hclean⟩
    rw [Heap.purged, Heap.mapRoots, hpurged]
    rfl
  · intro fault s' hc
    exact (answers_collect hh hclean).overflow hc

/-- A list of two cells, both due for an old generation with room for one. -/
def crowded : Store where
  heap :=
    { settings := { youngCapacity := 8, oldCapacity := 1, oldHighWater := 0, promotionThreshold := 1 }
      active := #[.cons .empty (.ref ⟨.young 0, 1⟩), .blank]
      roots := { entries := [(⟨0⟩, ⟨.young 0, 0⟩)], next := 1 } }

theorem reachable_crowded : crowded.Reachable := by
  have hmake : Heap.make? crowded.heap.settings 0 = .ok (.make crowded.heap.settings 0) := rfl
  have hstart : Reachable { heap := .make crowded.heap.settings 0 } := .start {} #[] hmake
  have hlist : Reachable { crowded with heap := { crowded.heap with roots := .empty 0 } } :=
    hstart.allocateLinked (show allocateLinked 2 _ = .ok (.ok ⟨.young 0, 0⟩) _ from rfl)
  exact hlist.addRoot (addRoot_of_lt (by decide) ⟨.young 0, 0⟩)

/-- Whether the collection is refused. -/
def isRefused (s : Store) : Bool :=
  match s.collect with
  | .ok (.error _) _ => true
  | _ => false

theorem exists_of_isRefused {s : Store} (h : s.isRefused = true) :
    ∃ error s', s.collect = .ok (.error error) s' := by
  unfold isRefused at h
  split at h
  · rename_i error s' hc
    exact ⟨error, s', hc⟩
  · cases h

theorem collect_refused_iff_crowded : crowded.Reachable ∧ crowded.heap.Clean ∧
    crowded.heap.settings.oldCapacity <
        crowded.heap.purged.reachedOld + crowded.heap.purged.reachedDue ∧
      ∃ error s', crowded.collect = .ok (.error error) s' ∧ s'.heap.active = crowded.heap.active ∧
        s'.heap.counters.failedCollections = 1 := by
  have hclean : crowded.heap.Clean := by constructor <;> decide
  obtain ⟨error, s', hc⟩ := exists_of_isRefused (show crowded.isRefused = true by cbv)
  obtain ⟨hiff, hleft, -⟩ := collect_refused_iff reachable_crowded hclean
  obtain ⟨-, hheap, -⟩ := hleft error s' hc
  refine ⟨reachable_crowded, hclean, (hiff.1 ⟨error, s', hc⟩).1, error, s', hc, ?_, ?_⟩
  · rw [hheap]
  · rw [hheap]
    rfl

end Store

end Tenure
