/-
  Tenure — collections in a row.

  When nothing happens between collections, the young cells grow older until there are none.  The next
  collection may still compact the old generation, because the last cells to become old have pushed
  it over its mark, and then its cells move once more.  After that there is nothing left to do: either
  the old generation is below its mark, or a compaction finds every cell marked.

  * `Heap.AgedAtLeast`: how old the young cells are at least; `Ages.agedAtLeast`, `Ages.none_young`:
    each collection makes them older, and in the end there are none.
  * `Heap.Settled`: a heap without young cells whose old generation is below its mark or has no
    garbage; `collect_of_settled`: what a collection does to it; `settled_of_collect`: a
    collection of a heap without young cells leaves such a heap.
  * `Store.Collections`: so many collections in a row; `Collections.steady`: what holds after them;
    `Collections.of_settled`: what is settled stays as it is.
  * `collections_settle`: after how many of them nothing changes any more.
-/
import Tenure.Proofs.RootOrder
import Tenure.Proofs.CellFlags
import Tenure.Proofs.CompactionLayout

namespace Tenure

theorem Flags.age_aged (f : Flags) : f.aged.age = min (f.age + 1) 2 := by
  rcases f with ⟨_, _ | _, _ | _, _⟩ <;> rfl

theorem RootRegistry.mapAddresses_id (roots : RootRegistry) : roots.mapAddresses id = roots := by
  simp [mapAddresses]

namespace Heap

variable {h h' : Heap} {n : Nat} {p : Address} {k : Collection} {report : CollectionSummary}
  {relocations : Nat} {oldGarbage youngGarbage : Array Cell}

/-! ## Growing older -/

/-- The flags of every young cell say that it has survived so many collections, as far as they tell. -/
def AgedAtLeast (h : Heap) (n : Nat) : Prop := ∀ p f, ¬ p.isOld → h.flags? p = some f → min n 2 ≤ f.age

theorem Ages.agedAtLeast (ha : h.Ages h') (hs : h.AgedAtLeast n) : h'.AgedAtLeast (n + 1) := by
  intro q g hq hg
  obtain ⟨p, f, hf, rfl, hqold⟩ := ha.origin q g hg
  obtain ⟨hp, hdue⟩ := not_or.1 (hqold.not.1 hq)
  have hage := hs p f hp hf
  rw [Flags.onward, if_neg hp, if_neg hdue, Flags.age_aged]
  omega

/-- With as many collections as the threshold asks for, the last of them leaves no young cell. -/
theorem Ages.none_young (ha : h.Ages h') (hs : h.AgedAtLeast n)
    (hmax : h.settings.promotionThreshold ≤ 3) (hn : h.settings.promotionThreshold ≤ n + 1) (q : Address)
    (hq : ¬ q.isOld) : ¬ h'.contains q := by
  intro hcontains
  obtain ⟨d, hd⟩ := contains_iff.1 hcontains
  obtain ⟨p, f, hf, -, hqold⟩ := ha.origin q d.flags (flags?_eq_some_iff.2 ⟨d, hd, rfl⟩)
  obtain ⟨hp, hdue⟩ := not_or.1 (hqold.not.1 hq)
  have hage := hs p f hp hf
  omega

theorem WellFormed.active_eq_empty (hh : h.WellFormed) (hnone : ∀ p, ¬ p.isOld → ¬ h.contains p) :
    h.active = #[] := by
  refine Array.eq_empty_of_size_eq_zero ?_
  by_contra hsize
  have hyoung := hh.young
  have hlimit : h.settings.youngCapacity < Address.limit := hh.settings.2.1
  obtain ⟨p, hp⟩ := Address.exists_make (s := h.side.space) (i := 0) (by omega)
  obtain ⟨hs, hpos⟩ := Address.make_eq_ok_iff.1 hp
  refine hnone p (Address.not_isOld_of_young hs) (contains_iff.2 ⟨h.active[0], ?_⟩)
  rw [get?_of_active h hs, hpos, Array.getElem?_eq_getElem]

/-! ## Heaps without young cells -/

theorem active_prepared (hactive : h.active = #[]) : h.prepared.active = #[] :=
  Array.eq_empty_of_size_eq_zero (by rw [size_active_prepared, hactive, Array.size_empty])

/-- Without young cells there is always room in the old generation for what it is to take. -/
theorem WellFormed.room_of_no_young (hh : h.WellFormed) (hclean : h.Clean) (hactive : h.active = #[]) :
    h.purged.reachedOld + h.purged.reachedDue ≤ h.settings.oldCapacity := by
  have hdue : h.prepared.plan.promoting = 0 := by
    show h.prepared.active.countP _ = 0
    rw [active_prepared hactive, Array.countP_empty]
  have hle : Compaction.markedCount h.prepared.old ≤ h.prepared.old.size := Array.countP_le_size
  have hold := hh.old
  rw [size_old_prepared] at hle
  rw [← markedCount_prepared hh hclean, ← promoting_prepared hh hclean, hdue]
  omega

/-- A heap without young cells, which a compaction would not change. -/
structure Settled (h : Heap) : Prop where
  active : h.active = #[]
  released : h.roots.released = []
  tight : h.settings.oldHighWater < h.old.size → ∀ p, p.isOld → h.contains p → h.Rooted p

/-- Getting the old generation of such a heap ready changes nothing. -/
theorem Settled.compacted (hs : h.Settled) (hh : h.WellFormed) (hclean : h.Clean)
    {r : Compaction.Result} (hr : h.prepared.compacted h.prepared.plan.compacting = .ok r) :
    r.kept = h.prepared.old ∧ r.dropped = #[] ∧ ∀ p, r.moves.resolve p = p := by
  cases hcompacting : h.prepared.plan.compacting with
  | false =>
    rw [hcompacting] at hr
    cases hr
    exact ⟨rfl, rfl, Relocation.resolve_empty⟩
  | true =>
    rw [hcompacting] at hr
    refine Compaction.compact_of_marked (fun c hc => ?_) hr
    have hplan : h.prepared.plan.compacting =
        (h.prepared.settings.oldHighWater < h.prepared.old.size ||
          h.prepared.settings.oldCapacity < h.prepared.old.size + h.prepared.active.countP _) := rfl
    rw [hcompacting, active_prepared hs.active, Array.countP_empty, settings_prepared,
      size_old_prepared, eq_comm, Bool.or_eq_true, decide_eq_true_iff, decide_eq_true_iff] at hplan
    have hover : h.settings.oldHighWater < h.old.size :=
      hplan.resolve_right (Nat.not_lt.2 hh.old)
    obtain ⟨i, hi, rfl⟩ := Array.mem_iff_getElem.1 hc
    have hsize := size_old_prepared h
    have hold := hh.old
    have hlimit : h.settings.oldCapacity < Address.limit := hh.settings.2.2.1
    obtain ⟨p, hp⟩ := Address.exists_make (s := .old) (i := i) (by omega)
    obtain ⟨hspace, rfl⟩ := Address.make_eq_ok_iff.1 hp
    have hpold := Address.isOld_iff.2 hspace
    have hget : h.prepared.get? p = some h.prepared.old[p.position] := by
      rw [get?_eq_cellAt _ hpold, Compaction.cellAt, if_pos hpold, Array.getElem?_eq_getElem]
    have hpurged := purged_eq hs.released
    have hcontains : h.contains p := by
      rw [← hpurged, ← contains_prepared]
      exact contains_iff.2 ⟨_, hget⟩
    have hmarks : h.prepared.Marks p := by
      rw [marks_prepared_iff, hpurged]
      exact Or.inr (hclean.finds_iff.2 (hs.tight hover p hpold hcontains))
    obtain ⟨d, hd, hm⟩ := hmarks
    cases hget.symm.trans hd
    exact hm

/-- **A collection of a settled heap** changes the young buffers for each other, and counts. -/
theorem collect_of_settled (hs : h.Settled) (hh : h.WellFormed) (hclean : h.Clean)
    (hk : h.collect = .ok k)
    (ho : k.outcome = .finished report relocations oldGarbage youngGarbage) :
    (report.survivors = 0 ∧ report.promoted = 0 ∧ report.reclaimed = 0 ∧ report.oldReclaimed = 0) ∧
      (oldGarbage = #[] ∧ youngGarbage = #[]) ∧
      k.heap = { h with side := h.side.other, counters := h.counters.recorded report } := by
  obtain ⟨r, e, hr, he, -, hheap, rfl, rfl, hreport⟩ := exists_evacuation hk ho
  have hactive := active_prepared hs.active
  have hcompacting : report.oldCollected = h.prepared.plan.compacting := by rw [hreport]; rfl
  rw [hcompacting] at hr
  obtain ⟨hkept, hdropped, hmoves⟩ := hs.compacted hh hclean hr
  rw [hactive] at he
  cases he
  refine ⟨?_, ⟨hdropped, rfl⟩, ?_⟩
  · rw [hreport, reportOf, hactive, hdropped, hs.active]
    exact ⟨rfl, rfl, Nat.zero_sub _, rfl⟩
  · have hback := clearMarks_prepared h
    rw [purged_eq hs.released, hclean.clearMarks] at hback
    have hsame : r.moves.resolve = id := funext hmoves
    have hold : (h.prepared.old.map fun c => r.moves.updateCell c.unmark) = h.old := by
      rw [← congrArg Heap.old hback]
      refine Array.map_congr_left fun c _ => ?_
      rw [Relocation.updateCell, hsame, Cell.mapRefs_id]
    rw [hheap, settle, hkept]
    simp only [mk.injEq]
    refine ⟨settings_prepared h, congrArg (·.side.other) hback, ?_, hh.idle.symm, hold, ?_,
      hh.relocations.symm, trivial⟩
    · rw [idle_prepared, hh.idle, hs.active, Array.map_empty]
    · rw [hsame, roots_prepared, purged_eq hs.released, RootRegistry.mapAddresses_id]

/-- What the roots reached they reach where it is now, if no root is missing. -/
theorem MapsOnto.rooted {kept : Set Address} {f : Address → Address} (hr : MapsOnto kept h f h')
    (hk : ∀ p, h.Rooted p → p ∈ kept) (hroots : ∀ p ∈ h.roots.addresses, f p ∈ h'.roots.addresses)
    (hp : h.Rooted p) : h'.Rooted (f p) := by
  induction hp with
  | start hs hc => exact .start (hroots _ hs) (hr.bijOn.mapsTo (hk _ (.start hs hc)))
  | @step p q hp hstep hc ih =>
    obtain ⟨c, hget, hq⟩ := hstep
    obtain ⟨c', d, hget', hd, hsame⟩ := hr.cell p (hk p hp)
    cases hget.symm.trans hget'
    refine .step ih ⟨d, hd, ?_⟩ (hr.bijOn.mapsTo (hk _ (.step hp ⟨c, hget, hq⟩ hc)))
    rw [hsame.references]
    exact List.mem_map_of_mem hq

end Heap

namespace Store

variable {s s' s'' : Store} {n : Nat} {p : Address} {report : CollectionSummary}

/-! ## One collection -/

/-- No root is missing but those whose owners were gone before. -/
def KeepsRoots (s s' : Store) : Prop :=
  ∀ id, s.heap.purged.roots.contains id → s'.heap.roots.contains id

theorem Readdresses.mem_addresses {f : Address → Address} (h : s.Readdresses f s')
    (hkeeps : s.KeepsRoots s') (hp : p ∈ s.heap.purged.roots.addresses) :
    f p ∈ s'.heap.roots.addresses := by
  obtain ⟨gone, hroots, -⟩ := h
  obtain ⟨⟨id, p⟩, he, rfl⟩ := List.mem_map.1 hp
  have hin : s'.heap.roots.contains id := hkeeps id (List.any_eq_true.2 ⟨_, he, beq_self_eq_true id⟩)
  rw [hroots] at hin ⊢
  obtain ⟨e, he', hid⟩ := List.any_eq_true.1 hin
  have hgone : id ∉ gone := by
    have hmem := (List.mem_filter.1 he').2
    rw [beq_iff_eq.1 hid] at hmem
    simpa using hmem
  refine List.mem_map.2 ⟨(id, f p), List.mem_filter.2 ⟨?_, by simpa using hgone⟩, rfl⟩
  exact List.mem_map.2 ⟨(id, p), he, rfl⟩

theorem released_of_collect (hc : s.collect = .ok (.ok report) s') : s'.heap.roots.released = [] := by
  obtain ⟨_, _, _, _, t, -, -, -, hs', -⟩ := exists_finished hc
  rw [hs']
  show t.heap.roots.purge.1.released = []
  rw [RootRegistry.purge_eq]

/-- Without young cells and without a compaction the old generation stays as large as it is. -/
theorem size_old_of_collect (hactive : s.heap.active = #[]) (hc : s.collect = .ok (.ok report) s')
    (hno : report.oldCollected = false) : s'.heap.old.size = s.heap.old.size := by
  obtain ⟨k, _, _, _, _, hk, ho, -⟩ := exists_finished hc
  obtain ⟨roots, halike⟩ := exists_roots_of_collect hk hc
  obtain ⟨r, e, hr, he, -, hheap, -⟩ := Heap.exists_evacuation hk ho
  rw [hno] at hr
  cases hr
  rw [Heap.active_prepared hactive] at he
  cases he
  rw [halike, hheap]
  show (s.heap.prepared.old.map _).size = _
  rw [Array.size_map, Heap.size_old_prepared]

/-- **The last collection that may change something**: without young cells, either the old generation
    is below its mark and stays so, or it is compacted, and then all that it holds is reached. -/
theorem settled_of_collect (hh : s.heap.WellFormed) (hclean : s.heap.Clean)
    (hactive : s.heap.active = #[]) (hc : s.collect = .ok (.ok report) s')
    (hactive' : s'.heap.active = #[]) (hkeeps : s.KeepsRoots s') : s'.heap.Settled := by
  refine ⟨hactive', released_of_collect hc, fun hover q hq hcontains => ?_⟩
  have hpurged : s.heap.purged.Clean := hclean
  obtain ⟨-, htransfers, -⟩ := transfers_newAddress hc
  cases hcompacts : report.oldCollected with
  | false =>
    have hsettings := (ages_of_collect hh hclean hc).settings
    rw [size_old_of_collect hactive hc hcompacts, hsettings] at hover
    have hwould := (report_exact hh hclean hc).1.2 (Or.inl hover)
    rw [hcompacts] at hwould
    cases hwould
  | true =>
    rw [hcompacts] at htransfers
    have hkept : ∀ p, s.heap.purged.Keeps true p ↔ s.heap.purged.Rooted p := fun p => by
      rw [hpurged.keeps_iff]
      simp
    obtain ⟨p, hp, rfl⟩ := htransfers.mapsOnto.bijOn.surjOn hcontains
    exact htransfers.mapsOnto.rooted (fun p hp => (hkept p).2 hp)
      (fun p hp => (readdresses_of_finished hc).mem_addresses hkeeps hp) ((hkept p).1 hp)

/-- A collection changes nothing but which young buffer is the active one, and the totals. -/
def Still (s : Store) : Prop :=
  ∀ r s', s.collect = .ok r s' → ∃ report, r = .ok report ∧
    (report.survivors = 0 ∧ report.promoted = 0 ∧ report.reclaimed = 0 ∧ report.oldReclaimed = 0) ∧
      s'.heap =
        { s.heap with
          side := s.heap.side.other
          counters := s.heap.counters.recorded report } ∧ s'.values = s.values

theorem exists_report_of_room (hh : s.heap.WellFormed) (hclean : s.heap.Clean)
    (hactive : s.heap.active = #[]) {r : Except HeapError CollectionSummary}
    (hc : s.collect = .ok r s') : ∃ report, r = .ok report := by
  cases r with
  | ok report => exact ⟨report, rfl⟩
  | error error =>
    exact absurd (of_refused hh hclean hc).1 (Nat.not_lt.2 (hh.room_of_no_young hclean hactive))

theorem still_of_settled (hs : s.heap.Settled) (hh : s.heap.WellFormed) (hclean : s.heap.Clean) :
    s.Still := by
  intro r s' hc
  obtain ⟨report, rfl⟩ := exists_report_of_room hh hclean hs.active hc
  obtain ⟨k, relocations, oldGarbage, youngGarbage, t, hk, ho, ht, hvalues, -, rfl⟩ := collect_finished hc
  obtain ⟨hzero, ⟨rfl, rfl⟩, hheap⟩ := Heap.collect_of_settled hs hh hclean hk ho
  refine ⟨report, rfl, hzero, ?_, hvalues⟩
  show t.heap.purged = _
  rw [ht, hheap]
  exact Heap.purged_eq hs.released

/-! ## Runs -/

/-- So many collections that succeed, and nothing else in between. -/
inductive Collections (s : Store) : Nat → Store → Prop
  | none : Collections s 0 s
  | next {n : Nat} {s' s'' : Store} {report : CollectionSummary} :
    Collections s n s' → s'.collect = .ok (.ok report) s'' → Collections s (n + 1) s''

/-- What holds after so many collections. -/
structure Steady (given : Settings) (n : Nat) (s : Store) : Prop where
  settings : s.heap.settings = given
  wellFormed : s.heap.WellFormed
  clean : s.heap.Clean
  noDangling : s.heap.purged.NoDangling
  released : 0 < n → s.heap.roots.released = []
  agedAtLeast : s.heap.AgedAtLeast n
  noYoung : 0 < n → given.promotionThreshold ≤ n → ∀ p, ¬ p.isOld → ¬ s.heap.contains p

theorem Steady.collect {given : Settings} (h : Steady given n s)
    (hc : s.collect = .ok (.ok report) s') : Steady given (n + 1) s' := by
  have hages := ages_of_collect h.wellFormed h.clean hc
  obtain ⟨-, htransfers, -⟩ := transfers_newAddress hc
  have hmax : s.heap.settings.promotionThreshold ≤ 3 := h.wellFormed.settings.2.2.2.2.2
  refine
    { settings := hages.settings.trans h.settings
      wellFormed := wellFormed_collect h.wellFormed hc
      clean := htransfers.clean
      noDangling := (noDangling_of_collect h.clean h.noDangling hc).purged
      released := fun _ => released_of_collect hc
      agedAtLeast := hages.agedAtLeast h.agedAtLeast
      noYoung := fun _ hn => hages.none_young h.agedAtLeast hmax (h.settings ▸ hn) }

theorem Collections.steady (h : s.Collections n s') (hh : s.heap.WellFormed) (hclean : s.heap.Clean)
    (hd : s.heap.purged.NoDangling) : Steady s.heap.settings n s' := by
  induction h with
  | none =>
    refine
      { settings := rfl
        wellFormed := hh
        clean := hclean
        noDangling := hd
        released := fun h => absurd h (Nat.lt_irrefl 0)
        agedAtLeast := fun _ _ _ _ => Nat.zero_le _
        noYoung := fun h => absurd h (Nat.lt_irrefl 0) }
  | next _ hc ih => exact ih.collect hc

/-- **Settled heaps stay as they are**, over any number of collections. -/
theorem Collections.of_settled (h : s.Collections n s') (hs : s.heap.Settled)
    (hh : s.heap.WellFormed) (hclean : s.heap.Clean) :
    s'.heap.Settled ∧ s'.heap.WellFormed ∧ s'.heap.Clean ∧
      s'.heap = { s.heap with side := s'.heap.side, counters := s'.heap.counters } ∧
        s'.values = s.values := by
  induction h with
  | none => exact ⟨hs, hh, hclean, rfl, rfl⟩
  | @next n s' s'' report _ hc ih =>
    obtain ⟨hs', hh', hclean', hsame, hvalues⟩ := ih
    obtain ⟨_, -, -, hheap, hvalues'⟩ := still_of_settled hs' hh' hclean' _ _ hc
    obtain ⟨-, htransfers, -⟩ := transfers_newAddress hc
    have hactive : s''.heap.active = #[] := by rw [hheap, hs'.active]
    have hkeeps : s'.KeepsRoots s'' := fun id hid => by
      rw [Heap.purged_eq hs'.released] at hid
      rwa [hheap]
    refine ⟨settled_of_collect hh' hclean' hs'.active hc hactive hkeeps, wellFormed_collect hh' hc,
      htransfers.clean, ?_, hvalues'.trans hvalues⟩
    rw [hheap, hsame]

/-- **Collections in a row settle.**  As many of them as the threshold asks for leave no young cell,
    and every root leads to an old one.  From then on a collection succeeds, unless a total runs
    over, and when one more has been made and has taken no root away, none that follows changes
    anything: no cell, no root and no value, and their reports count no cells. -/
theorem collections_settle (hs : s.Reachable) (hclean : s.heap.Clean)
    (hd : s.heap.purged.NoDangling) (hrun : s.Collections n s')
    (hn : s.heap.settings.promotionThreshold ≤ n) :
    s'.heap.active = #[] ∧ (∀ p ∈ s'.heap.roots.addresses, p.isOld ∧ s'.heap.contains p) ∧
      ((∃ report s'', s'.collect = .ok (.ok report) s'') ∨
        (s'.heap.NearLimit ∧ s'.collect = .error .additionOverflow s')) ∧
      ∀ report s'', s'.collect = .ok (.ok report) s'' → s'.KeepsRoots s'' →
        ∀ m t, s''.Collections m t → t.Still ∧
          t.heap = { s''.heap with side := t.heap.side, counters := t.heap.counters } ∧
            t.values = s''.values := by
  have hsteady := hrun.steady hs.wellFormed hclean hd
  have hmin : 0 < s.heap.settings.promotionThreshold := hs.wellFormed.settings.2.2.2.2.1
  have hpos : 0 < n := hmin.trans_le hn
  have hactive := hsteady.wellFormed.active_eq_empty (hsteady.noYoung hpos hn)
  refine ⟨hactive, fun p hp => ?_, ?_, fun report s'' hc hkeeps m t hmore => ?_⟩
  · have hpurged : s'.heap.purged = s'.heap := Heap.purged_eq (hsteady.released hpos)
    have hcontains : s'.heap.contains p := hsteady.noDangling.root p (by rwa [hpurged])
    refine ⟨?_, hcontains⟩
    by_contra hyoung
    exact hsteady.noYoung hpos hn p hyoung hcontains
  · rcases hsteady.wellFormed.collect_answers with ⟨k, hk⟩ | ⟨hlimit, hk⟩
    · obtain ⟨r, s'', hc⟩ := collect_of_ok hk
      obtain ⟨report, rfl⟩ := exists_report_of_room hsteady.wellFormed hsteady.clean hactive hc
      exact Or.inl ⟨report, s'', hc⟩
    · exact Or.inr ⟨hlimit, collect_of_fault hk⟩
  · have hnext := hsteady.collect hc
    have hactive' := hnext.wellFormed.active_eq_empty (hnext.noYoung (by omega) (by omega))
    have hsettled := settled_of_collect hsteady.wellFormed hsteady.clean hactive hc hactive' hkeeps
    obtain ⟨hs', hh', hclean', hsame⟩ := hmore.of_settled hsettled hnext.wellFormed hnext.clean
    exact ⟨still_of_settled hs' hh' hclean', hsame⟩

theorem keepsRoots_of_all
    (h : s.heap.purged.roots.entries.all (fun e => s'.heap.roots.contains e.1) = true) :
    s.KeepsRoots s' := by
  intro id hid
  obtain ⟨e, he, heq⟩ := List.any_eq_true.1 hid
  rw [← beq_iff_eq.1 heq]
  exact List.all_eq_true.1 h e he

/-- With a threshold of two, the second collection takes the last young cell to the old generation,
    and the third still compacts this, but has nothing to move. -/
theorem collections_settle_assorted : assorted.Reachable ∧ assorted.heap.Clean ∧
    assorted.heap.purged.NoDangling ∧ assorted.heap.settings.promotionThreshold ≤ 2 ∧
      ∃ s₂ s₃ report, assorted.Collections 2 s₂ ∧ s₂.heap.active = #[] ∧ s₂.heap.old.size = 2 ∧
        s₂.collect = .ok (.ok report) s₃ ∧ report.oldCollected = true ∧ s₂.KeepsRoots s₃ ∧
          s₃.Still := by
  have hclean : assorted.heap.Clean := by constructor <;> decide
  have hd : assorted.heap.purged.NoDangling :=
    Heap.noDangling_of_closed [⟨.young 0, 0⟩, ⟨.young 0, 1⟩] (by decide) (by decide)
  obtain ⟨_, s₁, hc₁, hcheck⟩ := exists_collect assorted (fun _ s₁ => s₁.collectPasses fun _ s₂ =>
    s₂.heap.old.size == 2 && s₂.collectPasses fun report s₃ => report.oldCollected &&
      s₂.heap.purged.roots.entries.all fun e => s₃.heap.roots.contains e.1) (by cbv)
  obtain ⟨_, s₂, hc₂, hcheck⟩ := exists_collect s₁ _ hcheck
  obtain ⟨hsize, hcheck⟩ := Bool.and_eq_true_iff.1 hcheck
  obtain ⟨report, s₃, hc₃, hcheck⟩ := exists_collect s₂ _ hcheck
  obtain ⟨hcollected, hroots⟩ := Bool.and_eq_true_iff.1 hcheck
  have hrun : assorted.Collections 2 s₂ := (Collections.none.next hc₁).next hc₂
  have hkeeps : s₂.KeepsRoots s₃ := keepsRoots_of_all hroots
  obtain ⟨hactive, -, -, hstill⟩ :=
    collections_settle reachable_assorted hclean hd hrun (Nat.le_refl 2)
  exact ⟨reachable_assorted, hclean, hd, Nat.le_refl 2, s₂, s₃, report, hrun, hactive,
    beq_iff_eq.1 hsize, hc₃, hcollected, hkeeps, (hstill report s₃ hc₃ hkeeps 0 s₃ .none).1⟩

end Store

end Tenure
