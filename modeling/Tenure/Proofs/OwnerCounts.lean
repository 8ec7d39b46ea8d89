/-
  Tenure — owners that go.

  When a value that owns a root comes to its end, the root is noted.  These lemmas keep an exact
  account of that: how many living values own a root, before and after.

  * `Values.owners`: how many living values own a root.
  * `Store.LosesOwners`: what giving up references does to the owners and to the roots noted;
    `exists_losesOwners_releaseCells`: giving up the cells of a buffer does this.
  * `collect_finished`: a collection that succeeds, with the store in which it gives up the
    discarded cells.
  * `Store.PurgesRoots`: what a collection does to the roots; `exists_purgesRoots_of_finished`,
    `purgesRoots_of_refused`: every collection does this.
  * `counters_collect`, `outcomes_collect`: what it counts, and what it notes.
-/
import Tenure.Proofs.DiscardedCells
import Tenure.Proofs.TrackedStores

namespace Tenure

/-! ## Owners -/

/-- The root that a value owns. -/
def ExternalValue.lease? : ExternalValue → Option RootLease
  | .owner _ root => some root
  | _ => none

/-- Whether a value has references and owns a root. -/
def Counted.owns (root : RootLease) (entry : Counted) : Bool :=
  entry.count ≠ 0 && entry.value.lease? = some root

namespace Values

variable {values : Values} {v : ValueId} {entry : Counted} {root : RootLease}

/-- How many living values own a root. -/
def owners (root : RootLease) (values : Values) : Nat := values.entries.toList.countP (·.owns root)

theorem owners_add (value : ExternalValue) :
    (values.add value).1.owners root = values.owners root + value.lease?.toList.count root := by
  have hnew : (Counted.owns root ⟨value, 1⟩) = (value.lease? = some root : Bool) := rfl
  rw [owners, add, Array.toList_push, List.countP_append, List.countP_singleton, hnew, owners]
  cases value.lease? with
  | none => simp
  | some root' => by_cases h : root' = root <;> simp [h]

/-- One of the counts changes, and with it perhaps whether there is a reference at all. -/
theorem owners_recount (he : values.entries[v.serial]? = some entry) (g : Nat → Nat) :
    (values.recount v g).owners root + (if entry.owns root then 1 else 0) =
      values.owners root + if Counted.owns root { entry with count := g entry.count } then 1 else 0 := by
  obtain ⟨before, behind, hlist, hlist'⟩ := recount_split he g
  rw [owners, owners, hlist, hlist', List.countP_append, List.countP_append, List.countP_cons,
    List.countP_cons]
  omega

theorem owners_retain (h : 0 < values.count v) : (values.retain v).owners root = values.owners root := by
  obtain ⟨entry, he⟩ := exists_entry h
  have hrecount := @owners_recount values v entry root he (· + 1)
  have hsame : Counted.owns root { entry with count := entry.count + 1 } = entry.owns root := by
    rw [count_of_entry he] at h
    simp [Counted.owns, Nat.pos_iff_ne_zero.1 h]
  rw [hsame] at hrecount
  rw [retain_eq]
  omega

/-- **A value that comes to its end** is one owner less. -/
theorem owners_release (values : Values) (v : ValueId) : (values.release v).1.owners root +
    ((values.release v).2.bind (·.lease?)).toList.count root = values.owners root := by
  cases he : values.entries[v.serial]? with
  | none =>
    rw [release_of_unknown he]
    rfl
  | some entry =>
    have hrecount := @owners_recount values v entry root he (· - 1)
    rw [release_eq he]
    by_cases hlast : entry.count = 1
    · have hnone : Counted.owns root { entry with count := entry.count - 1 } = false := by
        simp [Counted.owns, hlast]
      have howns : entry.owns root = (entry.value.lease? = some root : Bool) := by
        simp [Counted.owns, hlast]
      rw [hnone, howns] at hrecount
      rw [if_pos hlast, Option.bind_some]
      cases hlease : entry.value.lease? with
      | none => simpa [hlease] using hrecount
      | some root' => by_cases h : root' = root <;> simpa [hlease, h] using hrecount
    · have hsame : Counted.owns root { entry with count := entry.count - 1 } = entry.owns root := by
        have hzero : entry.count - 1 = 0 ↔ entry.count = 0 := by omega
        simp [Counted.owns, hzero]
      rw [hsame] at hrecount
      rw [if_neg hlast]
      simpa using hrecount

end Values

@[simp] theorem Store.heap_mapHeap (f : Heap → Heap) (s : Store) : (s.mapHeap f).heap = f s.heap := rfl

@[simp] theorem Store.values_mapHeap (f : Heap → Heap) (s : Store) :
    (s.mapHeap f).values = s.values := rfl

/-! ## Roots that are noted -/

namespace RootRegistry

variable {roots : RootRegistry}

/-- The handles among some leases that mean something to the registry. -/
def own (roots : RootRegistry) (gone : List RootLease) : List RootId :=
  (gone.filter (·.registry = roots.registry)).map (·.id)

theorem mem_own {gone : List RootLease} {id : RootId} :
    id ∈ roots.own gone ↔ ⟨roots.registry, id⟩ ∈ gone := by
  constructor
  · intro hid
    obtain ⟨⟨registry, id'⟩, hroot, rfl⟩ := List.mem_map.1 hid
    obtain ⟨hroot, hreg⟩ := List.mem_filter.1 hroot
    rwa [← of_decide_eq_true hreg]
  · intro hroot
    exact List.mem_map.2 ⟨_, List.mem_filter.2 ⟨hroot, decide_eq_true rfl⟩, rfl⟩

@[simp] theorem own_nil : roots.own [] = [] := rfl

theorem own_append (gone gone' : List RootLease) :
    roots.own (gone ++ gone') = roots.own gone ++ roots.own gone' := by
  simp [own]

theorem release_eq (root : RootLease) : roots.release root = roots.releasing (roots.own [root]) := by
  unfold release releasing own
  by_cases h : root.registry = roots.registry <;> simp [h]

end RootRegistry

namespace Store

variable {s s' s'' : Store} {gone gone' : List RootLease}

/-- Of the heap only the roots change whose owners are gone, and of living owners there are so many
    less. -/
structure LosesOwners (s : Store) (gone : List RootLease) (s' : Store) : Prop where
  heap : s'.heap = s.heap.mapRoots (·.releasing (s.heap.roots.own gone))
  owners : ∀ root, s'.values.owners root + gone.count root = s.values.owners root

namespace LosesOwners

theorem of_eq (hheap : s'.heap = s.heap) (hvalues : s'.values = s.values) : s.LosesOwners [] s' where
  heap := by simp [hheap, Heap.mapRoots, RootRegistry.releasing]
  owners root := by simp [hvalues]

theorem trans (h : s.LosesOwners gone s') (h' : s'.LosesOwners gone' s'') :
    s.LosesOwners (gone ++ gone') s'' where
  heap := by
    have hown : s'.heap.roots.own gone' = s.heap.roots.own gone' := by
      rw [h.heap]
      rfl
    rw [h'.heap, hown, h.heap, RootRegistry.own_append]
    simp [Heap.mapRoots, RootRegistry.releasing]
  owners root := by
    have := h.owners root
    have := h'.owners root
    rw [List.count_append]
    omega

end LosesOwners

theorem exists_losesOwners_release (s : Store) (v : ValueId) :
    ∃ gone, s.LosesOwners gone (s.release v) := by
  have howners : ∀ root, (s.release v).values.owners root +
      ((s.values.release v).2.bind (·.lease?)).toList.count root = s.values.owners root := by
    intro root
    rw [values_release]
    exact Values.owners_release s.values v
  refine ⟨_, ?_, howners⟩
  unfold release
  split
  · rename_i values hv
    simp [hv, Heap.mapRoots, RootRegistry.releasing]
  · rename_i values value hv
    rw [hv, Option.bind_some]
    cases value with
    | plain name => simp [finish, log, ExternalValue.lease?, Heap.mapRoots, RootRegistry.releasing]
    | file path => simp [finish, log, ExternalValue.lease?, Heap.mapRoots, RootRegistry.releasing]
    | owner name root => simp [finish, log, mapHeap, ExternalValue.lease?, Heap.mapRoots,
        RootRegistry.release_eq]

theorem exists_losesOwners_releaseSlot (s : Store) (slot : Slot) :
    ∃ gone, s.LosesOwners gone (s.releaseSlot slot) := by
  unfold releaseSlot
  split
  · exact exists_losesOwners_release s _
  · exact ⟨[], .of_eq rfl rfl⟩

/-- **Giving up the cells of a buffer**: the owners that go with them are noted, each of them once. -/
theorem exists_losesOwners_releaseCells (s : Store) (cells : Array Cell) :
    ∃ gone, s.LosesOwners gone (s.releaseCells cells) := by
  rw [releaseCells, ← Array.foldl_toList]
  induction cells.toList generalizing s with
  | nil => exact ⟨[], .of_eq rfl rfl⟩
  | cons c rest ih =>
    obtain ⟨gone₁, h₁⟩ := exists_losesOwners_releaseSlot s c.car
    obtain ⟨gone₂, h₂⟩ := exists_losesOwners_releaseSlot (s.releaseSlot c.car) c.cdr
    obtain ⟨gone₃, h₃⟩ := ih (s.releaseCell c)
    exact ⟨_, (h₁.trans h₂).trans h₃⟩

/-- The end of a heap. -/
theorem exists_losesOwners_dropHeap (s : Store) :
    (∃ gone, s.LosesOwners gone s.dropHeap) ∧ s.GivesUp s.dropHeap := by
  have key : ∀ first second third : Array Cell,
      (∃ gone, s.LosesOwners gone (((s.releaseCells first).releaseCells second).releaseCells third)) ∧
        s.GivesUp (((s.releaseCells first).releaseCells second).releaseCells third) := by
    intro first second third
    obtain ⟨gone₁, h₁⟩ := exists_losesOwners_releaseCells s first
    obtain ⟨gone₂, h₂⟩ := exists_losesOwners_releaseCells (s.releaseCells first) second
    obtain ⟨gone₃, h₃⟩ := exists_losesOwners_releaseCells
      ((s.releaseCells first).releaseCells second) third
    exact ⟨⟨_, (h₁.trans h₂).trans h₃⟩, ((givesUp_releaseCells _ _).trans
      (givesUp_releaseCells _ _)).trans (givesUp_releaseCells _ _)⟩
  unfold dropHeap
  cases s.heap.side with
  | first => exact key _ _ _
  | second => exact key _ _ _

end Store

/-! ## What collections note -/

/-- The outcome of a collection that an event notes. -/
def Event.outcome? : Event → Option (Except HeapError CollectionSummary)
  | .collected report => some (.ok report)
  | .refused (.oldExhausted live promoting capacity) =>
    some (.error (.oldExhausted live promoting capacity))
  | _ => none

theorem ExternalValue.outcome?_ending (value : ExternalValue) : value.ending.outcome? = none := by
  cases value <;> rfl

/-- The totals after a collection with a given outcome. -/
def Counters.after (c : Counters) : Except HeapError CollectionSummary → Counters
  | .ok report => c.recorded report
  | .error _ => c.abandoned

namespace Store

variable {s s' : Store} {r : Except HeapError CollectionSummary}

/-- The outcomes of all collections that the journal has noted, in order. -/
def outcomes (s : Store) : List (Except HeapError CollectionSummary) :=
  s.journal.toList.filterMap Event.outcome?

theorem outcomes_of_journal (h : s'.journal = s.journal) : s'.outcomes = s.outcomes := by
  rw [outcomes, h, outcomes]

theorem outcomes_log (s : Store) (event : Event) :
    (s.log event).outcomes = s.outcomes ++ event.outcome?.toList := by
  unfold outcomes log
  rw [Array.toList_push, List.filterMap_append]
  cases h : event.outcome? <;> simp [h]

theorem outcomes_log_of_none {event : Event} (h : event.outcome? = none) :
    (s.log event).outcomes = s.outcomes := by
  rw [outcomes_log, h]
  exact List.append_nil _

theorem outcomes_logMarking (s : Store) (dangling : Array Address) (summary : ReachedCells)
    (roots : Nat) : (s.logMarking dangling summary roots).outcomes = s.outcomes := by
  have key : ∀ (ps : List Address) (s : Store),
      (ps.foldl (fun s p => s.log (.danglingIgnored p)) s).outcomes = s.outcomes := by
    intro ps
    induction ps with
    | nil => intro s; rfl
    | cons p rest ih =>
      intro s
      exact (ih _).trans (outcomes_log_of_none rfl)
  rw [logMarking, ← Array.foldl_toList, outcomes_log_of_none rfl]
  exact key dangling.toList s

theorem outcomes_logStart (s : Store) (c : Collection) : (s.logStart c).outcomes = s.outcomes := by
  unfold logStart
  split
  · rw [outcomes_logMarking, outcomes_log_of_none rfl, outcomes_log_of_none rfl]
  · rw [outcomes_logMarking, outcomes_log_of_none rfl]

theorem outcomes_release (s : Store) (v : ValueId) : (s.release v).outcomes = s.outcomes := by
  unfold release
  split
  · rfl
  · rename_i values value hv
    have hnote : ({ s with values }.log value.ending).outcomes = s.outcomes :=
      outcomes_log_of_none value.outcome?_ending
    rw [← hnote]
    exact outcomes_of_journal (journal_finish _ _)

theorem outcomes_releaseSlot (s : Store) (slot : Slot) : (s.releaseSlot slot).outcomes = s.outcomes := by
  unfold releaseSlot
  split
  · exact outcomes_release s _
  · rfl

theorem outcomes_releaseCells (s : Store) (cells : Array Cell) :
    (s.releaseCells cells).outcomes = s.outcomes := by
  rw [releaseCells, ← Array.foldl_toList]
  induction cells.toList generalizing s with
  | nil => rfl
  | cons c rest ih =>
    rw [List.foldl_cons, ih, releaseCell, outcomes_releaseSlot, outcomes_releaseSlot]

/-! ## A collection that succeeds -/

/-- **A collection that succeeds**: the cells were moved in `t`, which then gives up the discarded
    ones and takes away the roots of the owners that were among them. -/
theorem collect_finished {report : CollectionSummary} (hc : s.collect = .ok (.ok report) s') :
    ∃ (c : Collection) (relocations : Nat) (oldGarbage youngGarbage : Array Cell) (t : Store),
      s.heap.collect = .ok c ∧
      c.outcome = .finished report relocations oldGarbage youngGarbage ∧
      t.heap = c.heap ∧ t.values = s.values ∧ t.outcomes = s.outcomes ∧
      s' = ((t.discarding oldGarbage relocations youngGarbage).purge).log (.collected report) := by
  unfold collect at hc
  split at hc
  · cases hc
  rename_i c hheap
  obtain ⟨hstart, hvalues⟩ := logStart_eq { s with heap := c.heap } c
  have hnotes := outcomes_logStart { s with heap := c.heap } c
  simp only at hc
  split at hc
  · cases hc
  · rename_i report' relocations oldGarbage youngGarbage ho
    cases hc
    refine ⟨c, relocations, oldGarbage, youngGarbage, _, hheap, ho, ?_, ?_, ?_, rfl⟩
    · split <;> exact hstart
    · split <;> exact hvalues
    · split
      · exact (outcomes_log_of_none rfl).trans hnotes
      · exact hnotes

theorem outcomes_discarding (s : Store) (oldGarbage : Array Cell) (relocations : Nat)
    (youngGarbage : Array Cell) :
    (s.discarding oldGarbage relocations youngGarbage).outcomes = s.outcomes := by
  rw [discarding, outcomes_releaseCells, outcomes_log_of_none rfl, outcomes_log_of_none rfl,
    outcomes_releaseCells]

theorem exists_losesOwners_discarding (s : Store) (oldGarbage : Array Cell) (relocations : Nat)
    (youngGarbage : Array Cell) :
    ∃ gone, s.LosesOwners gone (s.discarding oldGarbage relocations youngGarbage) := by
  obtain ⟨gone, hold⟩ := exists_losesOwners_releaseCells s oldGarbage
  -- the notes on the phases change neither the heap nor the values
  have hnotes := hold.trans (.of_eq (heap_log _ .copyPhase) (values_log _ .copyPhase))
  have hnotes' := hnotes.trans
    (.of_eq (heap_log _ (.fixupPhase relocations)) (values_log _ (.fixupPhase relocations)))
  obtain ⟨gone', hyoung⟩ := exists_losesOwners_releaseCells
    (((s.releaseCells oldGarbage).log .copyPhase).log (.fixupPhase relocations)) youngGarbage
  exact ⟨_, hnotes'.trans hyoung⟩

/-! ## Any collection -/

/-- **Each collection is noted**, with its outcome. -/
theorem outcomes_collect (hc : s.collect = .ok r s') : s'.outcomes = s.outcomes ++ [r] := by
  cases r with
  | ok report =>
    obtain ⟨c, relocations, oldGarbage, youngGarbage, t, -, -, -, -, ht, rfl⟩ := collect_finished hc
    rw [outcomes_log, ← ht, ← outcomes_discarding t oldGarbage relocations youngGarbage]
    rfl
  | error error =>
    unfold collect at hc
    split at hc
    · cases hc
    rename_i c hheap
    have hnotes := outcomes_logStart { s with heap := c.heap } c
    obtain ⟨-, heap, outcome, rfl, ⟨-, -, rfl⟩ | ⟨-, hm⟩⟩ := Heap.collect_cases hheap
    · cases hc
      rw [outcomes_log, hnotes]
      rfl
    · obtain ⟨_, _, -, -, -, -, rfl⟩ := Heap.move_cases hm
      cases hc

/-- **Each collection is counted**, by its outcome. -/
theorem counters_collect (hc : s.collect = .ok r s') :
    s'.heap.counters = s.heap.counters.after r := by
  cases r with
  | error error =>
    obtain ⟨hheap, -⟩ := heap_of_refused hc
    rw [hheap]
    rfl
  | ok report =>
    obtain ⟨c, _, _, _, _, hheap, ho, -⟩ := exists_finished hc
    obtain ⟨_, _, -, -, -, hleft, -⟩ := Heap.exists_evacuation hheap ho
    obtain ⟨roots, hs'⟩ := exists_roots_of_collect hheap hc
    rw [hs', hleft]
    rfl

/-- What a collection does to the roots: those whose owners are gone are taken away, and then, when
    cells have moved to `f`, those whose owners went with the discarded cells. -/
structure PurgesRoots (s : Store) (f : Address → Address) (gone : List RootLease) (s' : Store) :
    Prop where
  roots : s'.heap.roots =
    { (s.heap.purged.roots.mapAddresses f).without (s.heap.roots.own gone) with released := [] }
  owners : ∀ root, s'.values.owners root + gone.count root = s.values.owners root

theorem exists_purgesRoots_of_finished {report : CollectionSummary}
    (hc : s.collect = .ok (.ok report) s') :
    ∃ f gone, s.PurgesRoots f gone s' ∧ Heap.Transfers s.heap.purged report.oldCollected f s'.heap := by
  obtain ⟨c, relocations, oldGarbage, youngGarbage, t, hheap, ho, ht, hvalues, -, rfl⟩ :=
    collect_finished hc
  obtain ⟨⟨⟨hbij, hcell⟩, hisOld, hfixed, hclean⟩, hroots⟩ := Heap.transfers_newAddress hheap ho
  obtain ⟨gone, hgone⟩ := exists_losesOwners_discarding t oldGarbage relocations youngGarbage
  have hpurged : s.heap.purged.roots =
      { s.heap.roots.without s.heap.roots.released with released := [] } := s.heap.roots.purge_eq
  refine ⟨s.heap.newAddress, gone, ⟨?_, fun root => ?_⟩, ?_⟩
  · show (t.discarding oldGarbage relocations youngGarbage).heap.roots.purge.1 = _
    rw [RootRegistry.purge_eq, hgone.heap, ht]
    simp [Heap.mapRoots, hroots, hpurged, RootRegistry.releasing, RootRegistry.without,
      RootRegistry.mapAddresses, RootRegistry.own]
  · exact (hgone.owners root).trans (by rw [hvalues])
  · -- the roots are no part of what holds of the cells
    rw [heap_log, purge, heap_mapHeap, hgone.heap, ht]
    exact ⟨⟨hbij, hcell⟩, hisOld, hfixed, hclean⟩

/-- A collection that is given up has taken away the roots of owners that were gone, and the marks. -/
theorem purgesRoots_of_refused {error : HeapError} (hc : s.collect = .ok (.error error) s') :
    s.PurgesRoots id [] s' ∧ s'.values = s.values ∧
      ∀ p, s'.heap.get? p = (s.heap.get? p).map (·.unmark) := by
  obtain ⟨hheap', hvalues⟩ := heap_of_refused hc
  have hpurged : s.heap.purged.roots =
      { s.heap.roots.without s.heap.roots.released with released := [] } := s.heap.roots.purge_eq
  refine ⟨⟨?_, fun root => by rw [hvalues]; rfl⟩, hvalues, fun p => ?_⟩
  · rw [hheap']
    show s.heap.prepared.roots = _
    rw [Heap.roots_prepared]
    simp [hpurged, RootRegistry.without, RootRegistry.mapAddresses]
  · rw [hheap']
    show s.heap.prepared.clearMarks.get? p = _
    rw [Heap.get?_clearMarks, Heap.get?_prepared]
    rfl

end Store

end Tenure
