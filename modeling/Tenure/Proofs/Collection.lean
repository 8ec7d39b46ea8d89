/-
  Tenure — a collection as a whole.

  * `Heap.purged`, `Heap.prepared`: the heap without the roots whose owners are gone,
    and then with its live cells marked, which is where a collection decides.
  * `Heap.Keeps`: the cells that a collection keeps.
  * `collect_eq`, `Store.collect_cases`: what a collection of a heap and of a store is,
    in terms of these.
  * `heap_of_refused`: what a collection leaves that is given up; `exists_finished` with
    `Heap.exists_evacuation`: what one that succeeds is made of.
  * `Heap.newAddress`: where a collection takes the addresses; `transfers_newAddress`: the cells that it
    keeps are all the cells of the new heap, in the generations that are due to them.
-/
import Tenure.Proofs.CellMoves
import Tenure.Proofs.Relocation
import Tenure.Store.Allocate

namespace Tenure

namespace Heap

/-- The heap without the roots whose owners are gone. -/
def purged (h : Heap) : Heap := h.mapRoots (·.purge.1)

/-- The heap in which a collection decides: its live cells are marked. -/
def prepared (h : Heap) : Heap := { h.purged.mark.heap with relocations := .empty }

/-- The cells that a collection keeps: those that carry a mark when it starts, those that its mark
    phase finds, and all old ones if it does not compact their buffer. -/
def Keeps (h : Heap) (compacting : Bool) (p : Address) : Prop :=
  h.Marks p ∨ h.Finds h.roots.addresses p ∨ (compacting = false ∧ p.isOld ∧ h.contains p)

/-! ## The marked heap -/

variable {h h' : Heap}

theorem clearMarks_prepared (h : Heap) :
    h.prepared.clearMarks = { h.purged.clearMarks with relocations := .empty } := by
  rw [← clearMarks_mark h.purged]
  rfl

@[simp] theorem settings_prepared (h : Heap) : h.prepared.settings = h.settings := by
  have := congrArg Heap.settings (clearMarks_prepared h)
  exact this

@[simp] theorem idle_prepared (h : Heap) : h.prepared.idle = h.idle := by
  have := congrArg Heap.idle (clearMarks_prepared h)
  exact this

@[simp] theorem roots_prepared (h : Heap) : h.prepared.roots = h.purged.roots := by
  have := congrArg Heap.roots (clearMarks_prepared h)
  exact this

@[simp] theorem counters_prepared (h : Heap) : h.prepared.counters = h.counters := by
  have := congrArg Heap.counters (clearMarks_prepared h)
  exact this

@[simp] theorem size_active_prepared (h : Heap) : h.prepared.active.size = h.active.size := by
  have := congrArg (·.active.size) (clearMarks_prepared h)
  simpa [clearMarks, purged, mapRoots] using this

@[simp] theorem size_old_prepared (h : Heap) : h.prepared.old.size = h.old.size := by
  have := congrArg (·.old.size) (clearMarks_prepared h)
  simpa [clearMarks, purged, mapRoots] using this

/-- The cells are the same but for their marks. -/
theorem get?_prepared (h : Heap) (p : Address) :
    (h.prepared.get? p).map (·.unmark) = (h.purged.get? p).map (·.unmark) := by
  rw [← get?_clearMarks, ← get?_clearMarks, clearMarks_prepared]
  rfl

theorem unmark_prepared {p : Address} {d : Cell} (hd : h.prepared.get? p = some d) :
    ∃ c, h.purged.get? p = some c ∧ c.unmark = d.unmark := by
  have hget := get?_prepared h p
  rw [hd] at hget
  exact Option.map_eq_some_iff.1 hget.symm

theorem contains_prepared (h : Heap) (p : Address) :
    h.prepared.contains p = h.purged.contains p := by
  have := congrArg Option.isSome (get?_prepared h p)
  simpa [contains] using this

theorem marks_prepared_iff (h : Heap) {p : Address} :
    h.prepared.Marks p ↔ h.purged.Marks p ∨ h.purged.Finds h.purged.roots.addresses p :=
  marks_mark_iff h.purged

theorem carried_prepared_iff (h : Heap) {compacting : Bool} {p : Address} :
    (h.prepared.carried compacting p).isSome ↔ h.purged.Keeps compacting p := by
  rw [carried_isSome_iff, marks_prepared_iff, contains_prepared, Keeps, or_assoc]

/-- Without marks a collection keeps whatever the roots reach. -/
theorem Clean.keeps (hh : h.purged.Clean) {compacting : Bool} {p : Address}
    (hp : h.purged.Rooted p) : h.purged.Keeps compacting p :=
  Or.inr (Or.inl (hh.finds_iff.2 hp))

/-! ## A collection of a heap -/

/-- The refusal of a collection whose live cells do not fit. -/
def refusal (h : Heap) : HeapError :=
  .oldExhausted h.prepared.plan.liveOld h.prepared.plan.promoting h.settings.oldCapacity

/-- A collection that ends in a given way. -/
def collection (h heap : Heap) (outcome : CollectionOutcome) : Collection where
  heap := heap
  released := h.roots.purge.2
  summary := h.purged.mark.summary
  dangling := h.purged.mark.dangling
  plan := h.prepared.plan
  outcome := outcome

theorem collect_eq (hidle : h.idle = #[]) :
    h.collect =
      if h.settings.oldCapacity < h.prepared.plan.liveOld + h.prepared.plan.promoting then
        h.prepared.abandon >>= fun heap => .ok (h.collection heap (.abandoned h.refusal))
      else
        h.prepared.move h.prepared.plan h.purged.mark.summary >>= fun r =>
          .ok (h.collection r.1 r.2) := by
  have hempty : (!h.idle.isEmpty) = false := by simp [hidle]
  unfold collect
  rw [hempty]
  rfl

theorem collect_cases {c : Collection} (hc : h.collect = .ok c) :
    h.idle = #[] ∧ ∃ heap outcome, c = h.collection heap outcome ∧
      ((h.settings.oldCapacity < h.prepared.plan.liveOld + h.prepared.plan.promoting ∧
          h.prepared.abandon = .ok heap ∧ outcome = .abandoned h.refusal) ∨
        (h.prepared.plan.liveOld + h.prepared.plan.promoting ≤ h.settings.oldCapacity ∧
          h.prepared.move h.prepared.plan h.purged.mark.summary = .ok (heap, outcome))) := by
  have hidle : h.idle = #[] := by
    by_contra hne
    have hbusy : h.idle.isEmpty = false := by simpa using hne
    rw [collect, hbusy] at hc
    cases hc
  rw [collect_eq hidle] at hc
  split at hc
  · rename_i hfull
    obtain ⟨heap, ha, hc⟩ := bind_eq_ok_iff.1 hc
    cases hc
    exact ⟨hidle, _, _, rfl, Or.inl ⟨hfull, ha, rfl⟩⟩
  · rename_i hroom
    obtain ⟨⟨heap, outcome⟩, hm, hc⟩ := bind_eq_ok_iff.1 hc
    cases hc
    exact ⟨hidle, _, _, rfl, Or.inr ⟨Nat.not_lt.1 hroom, hm⟩⟩

/-- Giving a collection up takes the marks away and is counted. -/
theorem eq_of_abandon (ha : h.abandon = .ok h') :
    h' = { h.clearMarks with counters := h.counters.abandoned } := by
  unfold abandon at ha
  rcases Counters.recordAbandoned_cases h.counters with hok | ⟨-, hfault⟩
  · rw [hok] at ha
    cases ha
    rfl
  · rw [hfault] at ha
    cases ha

/-- The heap that a collection leaves that is given up. -/
theorem heap_of_abandoned {c : Collection} (hc : h.collect = .ok c) {error : HeapError}
    (ho : c.outcome = .abandoned error) :
    c.heap = { h.prepared.clearMarks with counters := h.counters.abandoned } := by
  obtain ⟨-, heap, outcome, rfl, ⟨-, ha, -⟩ | ⟨-, hm⟩⟩ := collect_cases hc
  · rw [← counters_prepared h]
    exact eq_of_abandon ha
  · obtain ⟨_, _, -, -, -, -, rfl⟩ := move_cases hm
    cases ho

/-- What a collection does to the addresses: it takes those of the cells that it keeps to the
    addresses of all cells of the new heap.  Old cells stay old, the young ones that are due become
    old, and addresses without a cell are left as they are. -/
structure Transfers (h : Heap) (compacting : Bool) (f : Address → Address) (h' : Heap) : Prop where
  mapsOnto : MapsOnto {p | h.Keeps compacting p} h f h'
  isOld : ∀ p c, h.get? p = some c → h.Keeps compacting p →
    ((f p).isOld ↔ p.isOld ∨ c.isDue h.settings.promotionThreshold)
  fixed : ∀ p, ¬ h.contains p → f p = p
  clean : h'.Clean

theorem age_eq_of_unmark {c d : Cell} (h : c.unmark = d.unmark) : c.flags.age = d.flags.age := by
  have hage : c.unmark.flags.age = d.unmark.flags.age := by rw [h]
  exact hage

/-- Where a collection takes the addresses: the moves that it records, as they are looked up for every
    address in a cell or a root. -/
def newAddress (h : Heap) (p : Address) : Address :=
  (h.prepared.movesOf h.prepared.plan.compacting).resolve p

/-- The two halves of a collection that succeeds, from which all of it can be read off: the old
    generation as it is made ready, and the buffers when the young one has been emptied. -/
theorem exists_evacuation {c : Collection} (hc : h.collect = .ok c) {report : CollectionSummary}
    {relocations : Nat} {oldGarbage youngGarbage : Array Cell}
    (ho : c.outcome = .finished report relocations oldGarbage youngGarbage) :
    ∃ r e, h.prepared.compacted report.oldCollected = .ok r ∧
      Evacuation.run h.prepared.settings.promotionThreshold h.prepared.side
        h.prepared.active.toList 0
          { young := h.prepared.idle, old := r.kept, moves := r.moves } = .ok e ∧
      h.newAddress = e.moves.resolve ∧
      c.heap = { h.prepared.settle e with counters := h.counters.recorded report } ∧
      oldGarbage = r.dropped ∧ youngGarbage = e.garbage ∧
      report = h.prepared.reportOf h.prepared.plan
        (h.active.size - h.purged.mark.summary.young) r.dropped.size := by
  obtain ⟨-, heap, outcome, rfl, ⟨-, -, rfl⟩ | ⟨-, hm⟩⟩ := collect_cases hc
  · cases ho
  obtain ⟨r, e, hr, he, -, rfl, rfl⟩ := move_cases hm
  cases ho
  have hmoves : h.prepared.movesOf h.prepared.plan.compacting = e.moves := by
    rw [movesOf, hr, ok_bind, he]
  refine ⟨r, e, hr, he, funext fun p => by rw [newAddress, hmoves], ?_, rfl, rfl, ?_⟩
  · rw [← counters_prepared h]
    rfl
  · rw [← size_active_prepared h]

/-- A collection that succeeds has moved the marked heap. -/
theorem moved_newAddress {c : Collection} (hc : h.collect = .ok c) {report : CollectionSummary}
    {relocations : Nat} {oldGarbage youngGarbage : Array Cell}
    (ho : c.outcome = .finished report relocations oldGarbage youngGarbage) :
    h.prepared.Moved report.oldCollected h.newAddress c.heap := by
  obtain ⟨_, _, -, -, -, -, -, -, hreport⟩ := exists_evacuation hc ho
  obtain ⟨hidle, heap, outcome, rfl, ⟨-, -, rfl⟩ | ⟨-, hm⟩⟩ := collect_cases hc
  · cases ho
  have hcollected : report.oldCollected = h.prepared.plan.compacting := by rw [hreport]; rfl
  rw [hcollected]
  exact moved_of_move (by rw [idle_prepared, hidle]) rfl hm

/-- **The cells that a collection keeps** are all the cells of the new heap. -/
theorem transfers_newAddress {c : Collection} (hc : h.collect = .ok c) {report : CollectionSummary}
    {relocations : Nat} {oldGarbage youngGarbage : Array Cell}
    (ho : c.outcome = .finished report relocations oldGarbage youngGarbage) :
    Transfers h.purged report.oldCollected h.newAddress c.heap ∧
      c.heap.roots = h.purged.roots.mapAddresses h.newAddress := by
  have hf := moved_newAddress hc ho
  have hkept : ∀ p, (h.prepared.carried report.oldCollected p).isSome ↔
      h.purged.Keeps report.oldCollected p := fun p => carried_prepared_iff h
  refine ⟨⟨⟨?_, fun p hp => ?_⟩, ?_, ?_, hf.clean⟩, hf.roots.trans (by rw [roots_prepared])⟩
  · have hset : {p | (h.prepared.carried report.oldCollected p).isSome} =
        {p | h.purged.Keeps report.oldCollected p} := Set.ext hkept
    exact hset ▸ hf.bijOn
  · obtain ⟨d, hd⟩ := Option.isSome_iff_exists.1 ((hkept p).2 hp)
    obtain ⟨d₀, hd₀, hcar, hcdr⟩ := slots_carried hd
    obtain ⟨c₀, hc₀, hunmark⟩ := unmark_prepared hd₀
    have hcar₀ : c₀.car = d₀.car := (Cell.mk.inj hunmark).1
    have hcdr₀ : c₀.cdr = d₀.cdr := (Cell.mk.inj hunmark).2.1
    refine ⟨c₀, _, hc₀, hf.cell p d hd, ?_, ?_⟩
    · show d.car.mapRef h.newAddress = c₀.car.mapRef h.newAddress
      rw [hcar, hcar₀]
    · show d.cdr.mapRef h.newAddress = c₀.cdr.mapRef h.newAddress
      rw [hcdr, hcdr₀]
  · intro p c hc hp
    obtain ⟨d, hd⟩ := contains_iff.1 ((contains_prepared h p).trans (contains_iff.2 ⟨c, hc⟩))
    obtain ⟨c', hc', hunmark⟩ := unmark_prepared hd
    rw [hc] at hc'
    cases hc'
    rw [hf.isOld p d hd ((hkept p).2 hp), settings_prepared, Cell.isDue, Cell.isDue,
      age_eq_of_unmark hunmark]
    rfl
  · intro p hp
    exact hf.fixed p (by rwa [contains_prepared])

end Heap

/-! ## A collection of a store -/

namespace Store

@[simp] theorem heap_log (s : Store) (event : Event) : (s.log event).heap = s.heap := rfl

@[simp] theorem values_log (s : Store) (event : Event) : (s.log event).values = s.values := rfl

theorem logMarking_eq (s : Store) (dangling : Array Address) (summary : ReachedCells) (roots : Nat) :
    (s.logMarking dangling summary roots).heap = s.heap ∧
      (s.logMarking dangling summary roots).values = s.values := by
  have key : ∀ (ps : List Address) (s : Store),
      (ps.foldl (fun s p => s.log (.danglingIgnored p)) s).heap = s.heap ∧
        (ps.foldl (fun s p => s.log (.danglingIgnored p)) s).values = s.values := by
    intro ps
    induction ps with
    | nil => intro s; exact ⟨rfl, rfl⟩
    | cons p rest ih => intro s; exact ih _
  rw [logMarking, ← Array.foldl_toList]
  exact key dangling.toList s

theorem logStart_eq (s : Store) (c : Collection) :
    (s.logStart c).heap = s.heap ∧ (s.logStart c).values = s.values := by
  unfold logStart
  split
  · exact logMarking_eq _ _ _ _
  · exact logMarking_eq _ _ _ _

/-- Two ways for a collection to end.  When it succeeds, the values that go with the discarded
    cells may take roots with them. -/
theorem collect_cases {s s' : Store} {r : Except HeapError CollectionSummary}
    (hc : s.collect = .ok r s') :
    ∃ c, s.heap.collect = .ok c ∧
      ((∃ error, c.outcome = .abandoned error ∧ r = .error error ∧ s'.heap = c.heap ∧
          s'.values = s.values) ∨
        ∃ report relocations oldGarbage youngGarbage,
          c.outcome = .finished report relocations oldGarbage youngGarbage ∧ r = .ok report ∧
            ∃ t, GivesUp { s with heap := c.heap } t ∧ s'.heap = t.heap.purged ∧
              s'.values = t.values) := by
  unfold collect at hc
  split at hc
  · cases hc
  rename_i c hheap
  have hstart := logStart_eq { s with heap := c.heap } c
  refine ⟨c, hheap, ?_⟩
  simp only at hc
  split at hc
  · rename_i error ho
    cases hc
    exact Or.inl ⟨error, ho, rfl, hstart.1, hstart.2⟩
  · rename_i report relocations oldGarbage youngGarbage ho
    cases hc
    refine Or.inr ⟨report, relocations, oldGarbage, youngGarbage, ho, rfl, ?_⟩
    have hplan : GivesUp { s with heap := c.heap }
        (if c.plan.compacting then
          ({ s with heap := c.heap }.logStart c).log (.compacting c.plan.oldCells c.plan.liveOld)
        else { s with heap := c.heap }.logStart c) := by
      split
      · exact .of_eq hstart.1 hstart.2
      · exact .of_eq hstart.1 hstart.2
    have hold := hplan.trans (givesUp_releaseCells _ oldGarbage)
    have hnotes := hold.trans (.of_eq (heap_log _ .copyPhase) (values_log _ .copyPhase))
    have hnotes' := hnotes.trans
      (.of_eq (heap_log _ (.fixupPhase relocations)) (values_log _ (.fixupPhase relocations)))
    exact ⟨_, hnotes'.trans (givesUp_releaseCells _ youngGarbage), rfl, rfl⟩

/-- What a collection leaves that is refused. -/
theorem heap_of_refused {s s' : Store} {error : HeapError} (hc : s.collect = .ok (.error error) s') :
    s'.heap = { s.heap.prepared.clearMarks with counters := s.heap.counters.abandoned } ∧
      s'.values = s.values := by
  obtain ⟨c, hheap, ⟨_, ho, -, hs', hvalues⟩ | ⟨_, _, _, _, _, hr, _⟩⟩ := collect_cases hc
  · exact ⟨hs'.trans (Heap.heap_of_abandoned hheap ho), hvalues⟩
  · cases hr

/-- A successful collection is one of the heap, and values that go. -/
theorem exists_finished {s s' : Store} {report : CollectionSummary}
    (hc : s.collect = .ok (.ok report) s') :
    ∃ c relocations oldGarbage youngGarbage t, s.heap.collect = .ok c ∧
      c.outcome = .finished report relocations oldGarbage youngGarbage ∧
        GivesUp { s with heap := c.heap } t ∧ s'.heap = t.heap.purged ∧ s'.values = t.values := by
  obtain ⟨c, hheap, ⟨_, _, hr, _⟩ | ⟨_, relocations, oldGarbage, youngGarbage, ho, hr, t, ht⟩⟩ :=
    collect_cases hc
  · cases hr
  · cases hr
    exact ⟨c, relocations, oldGarbage, youngGarbage, t, hheap, ho, ht⟩

/-- The heap that a collection of a store leaves is that of the collection of its heap, but for the
    roots that went with discarded cells. -/
theorem exists_roots_of_collect {s s' : Store} {r : Except HeapError CollectionSummary}
    {c : Collection} (hheap : s.heap.collect = .ok c) (hc : s.collect = .ok r s') :
    ∃ roots, s'.heap = { c.heap with roots } := by
  obtain ⟨c', hheap', ⟨_, -, -, hs', -⟩ | ⟨_, _, _, _, -, -, t, ht, hs', -⟩⟩ := collect_cases hc
  · cases hheap.symm.trans hheap'
    exact ⟨_, hs'⟩
  · cases hheap.symm.trans hheap'
    obtain ⟨gone, hgone, -⟩ := ht.heap
    rw [hs', hgone]
    exact ⟨_, rfl⟩

/-- A successful collection of a store: what it does to the addresses, and the roots. -/
theorem transfers_newAddress {s s' : Store} {report : CollectionSummary}
    (hc : s.collect = .ok (.ok report) s') :
    ∃ gone, Heap.Transfers s.heap.purged report.oldCollected s.heap.newAddress s'.heap ∧
      s'.heap.roots = (s.heap.purged.roots.mapAddresses s.heap.newAddress).without gone ∧
        ∀ id ∈ gone, s.values.Leases ⟨s.heap.roots.registry, id⟩ := by
  obtain ⟨c, _, _, _, t, hheap, ho, ht, hs', -⟩ := exists_finished hc
  obtain ⟨⟨⟨hbij, hcell⟩, hisOld, hfixed, hclean⟩, hroots⟩ := Heap.transfers_newAddress hheap ho
  obtain ⟨gone, hgone, hleases⟩ := ht.heap
  have hpurged : s.heap.purged.roots =
      { s.heap.roots.without s.heap.roots.released with released := [] } := s.heap.roots.purge_eq
  have hleft : s'.heap.roots = (s.heap.purged.roots.mapAddresses s.heap.newAddress).without gone := by
    rw [hs', hgone]
    show (c.heap.roots.releasing gone).purge.1 = _
    rw [RootRegistry.purge_eq, hroots, hpurged]
    rfl
  have hregistry : c.heap.roots.registry = s.heap.roots.registry := by
    rw [hroots, hpurged]
    rfl
  refine ⟨gone, ?_, hleft, hregistry ▸ hleases⟩
  -- the roots are no part of what holds of the cells
  rw [hs', hgone]
  exact ⟨⟨hbij, hcell⟩, hisOld, hfixed, hclean⟩

theorem exists_transfers {s s' : Store} {report : CollectionSummary}
    (hc : s.collect = .ok (.ok report) s') :
    ∃ f gone, Heap.Transfers s.heap.purged report.oldCollected f s'.heap ∧
      s'.heap.roots = (s.heap.purged.roots.mapAddresses f).without gone ∧
        ∀ id ∈ gone, s.values.Leases ⟨s.heap.roots.registry, id⟩ :=
  ⟨s.heap.newAddress, transfers_newAddress hc⟩

/-- A successful collection of a store: the cells that it keeps, and the roots. -/
theorem exists_mapsOnto {s s' : Store} {report : CollectionSummary}
    (hc : s.collect = .ok (.ok report) s') :
    ∃ f gone,
      Heap.MapsOnto {p | s.heap.purged.Keeps report.oldCollected p} s.heap.purged f s'.heap ∧
        s'.heap.Clean ∧ s'.heap.roots = (s.heap.purged.roots.mapAddresses f).without gone ∧
          ∀ id ∈ gone, s.values.Leases ⟨s.heap.roots.registry, id⟩ := by
  obtain ⟨f, gone, hf, hroots, hgone⟩ := exists_transfers hc
  exact ⟨f, gone, hf.mapsOnto, hf.clean, hroots, hgone⟩

end Store

end Tenure
