/-
  Tenure — old cells between two compactions.

  A collection that does not compact the old generation only appends to it.  The table of moves has
  young addresses then, although some of these moves lead to old ones, so that an old address is
  looked up in vain wherever it is found, and its cell is where it was.

  * `Heap.KeepsOldCells`: every old cell is where it was, with what it held but for the new addresses
    of young cells that the roots reach.
  * `Store.keepsOldCells_of_collect`: a collection that does not compact leaves the old cells like this.
  * `collect_stands`: the same with the roots, and for collections that are refused.
  * `Step.contains_old`, `contains_old_of_steps`: whatever a client does, an old address names a cell
    as long as no collection compacts.
-/
import Tenure.Proofs.RootOrder
import Tenure.Proofs.CellAges

namespace Tenure

namespace Heap

variable {h h' : Heap} {p : Address} {c : Cell} {i : Nat} {f : Address → Address} {k : Collection}
  {report : CollectionSummary} {relocations : Nat} {oldGarbage youngGarbage : Array Cell}

/-- The old cells of `h` are in `h'` at the same places, with the same flags and payloads, but that
    the addresses in them have been looked up.  Just the young cells that the roots reach have other
    addresses, and each has one of its own. -/
structure KeepsOldCells (h : Heap) (f : Address → Address) (h' : Heap) : Prop where
  cell : ∀ (i : Nat) (c : Cell), h.old[i]? = some c → h'.old[i]? = some (c.mapRefs f)
  fixed : ∀ p, p.isOld ∨ ¬ h.purged.Rooted p → f p = p
  moved : ∀ p, h.purged.Rooted p → ∃ c d, h.get? p = some c ∧ h'.get? (f p) = some d ∧ c.SameBut f d
  distinct : Set.InjOn f {p | h.purged.Rooted p}

theorem KeepsOldCells.get?_old (hs : h.KeepsOldCells f h') (hp : p.isOld) (hc : h.get? p = some c) :
    h'.get? p = some (c.mapRefs f) := by
  rw [get?_eq_cellAt _ hp, Compaction.cellAt, if_pos hp] at hc ⊢
  exact hs.cell p.position c hc

/-- Only young cells have moved. -/
theorem newAddress_fixed (hclean : h.Clean) (hk : h.collect = .ok k)
    (ho : k.outcome = .finished report relocations oldGarbage youngGarbage)
    (hno : report.oldCollected = false) (hp : p.isOld ∨ ¬ h.purged.Rooted p) : h.newAddress p = p := by
  obtain ⟨r, e, hr, he, hnewAddress, -⟩ := exists_evacuation hk ho
  rw [hno] at hr
  cases hr
  have hstay := (Evacuation.resolve_run he p).2 fun c hc => ?_
  · rw [hnewAddress, hstay]
    exact Relocation.resolve_empty p
  · obtain ⟨hs, hc⟩ := (names_active _).1 hc
    by_contra hm
    have hrooted : h.purged.Rooted p :=
      (Clean.marks_mark_iff (h := h.purged) hclean).1 ⟨c, hc, by simpa using hm⟩
    exact hp.elim (Address.not_isOld_of_young hs) fun hno => hno hrooted

/-- The old cells are where they were, in front of those that have become old. -/
theorem old_of_collect (hclean : h.Clean) (hk : h.collect = .ok k)
    (ho : k.outcome = .finished report relocations oldGarbage youngGarbage)
    (hno : report.oldCollected = false) (hc : h.old[i]? = some c) :
    k.heap.old[i]? = some (c.mapRefs h.newAddress) := by
  obtain ⟨r, e, hr, he, hnewAddress, hheap, -⟩ := exists_evacuation hk ho
  rw [hno] at hr
  cases hr
  have hback : h.prepared.old.map (·.unmark) = h.old := by
    have hcells := congrArg Heap.old (clearMarks_prepared h)
    rw [Clean.clearMarks (h := h.purged) hclean] at hcells
    exact hcells
  rw [← hback, Array.getElem?_map] at hc
  obtain ⟨d, hd, rfl⟩ := Option.map_eq_some_iff.1 hc
  obtain ⟨hlt, -⟩ := Array.getElem?_eq_some_iff.1 hd
  rw [hheap, hnewAddress]
  show (e.old.map fun c => e.moves.updateCell c.unmark)[i]? = _
  rw [Array.getElem?_map, (Evacuation.run_buffers he).2.1, Array.getElem?_append_left hlt, hd]
  rfl

end Heap

namespace Store

variable {s s' : Store} {p : Address} {report : CollectionSummary}

/-- **Without a compaction the old cells stay** where they are. -/
theorem keepsOldCells_of_collect (hclean : s.heap.Clean) (hc : s.collect = .ok (.ok report) s')
    (hno : report.oldCollected = false) : s.heap.KeepsOldCells s.heap.newAddress s'.heap := by
  obtain ⟨-, htransfers, -⟩ := transfers_newAddress hc
  obtain ⟨k, _, _, _, _, hk, ho, -⟩ := exists_finished hc
  have hkeeps : ∀ p, s.heap.purged.Rooted p → s.heap.purged.Keeps report.oldCollected p :=
    fun p hp => Heap.Clean.keeps (h := s.heap) hclean hp
  have hold : s'.heap.old = k.heap.old := by
    obtain ⟨_, hroots⟩ := exists_roots_of_collect hk hc
    rw [hroots]
  refine
    { cell := fun i c hi => ?_
      fixed := fun p hp => Heap.newAddress_fixed hclean hk ho hno hp
      moved := fun p hp => htransfers.mapsOnto.cell p (hkeeps p hp)
      distinct := htransfers.mapsOnto.bijOn.injOn.mono hkeeps }
  rw [hold]
  exact Heap.old_of_collect hclean hk ho hno hi

/-- A root that is still registered holds the address that `f` gives for what it held. -/
theorem Readdresses.get? {f : Address → Address} (h : s.Readdresses f s') {id : RootId}
    {p q : Address} (hp : s.heap.roots.get? id = some p) (hq : s'.heap.roots.get? id = some q) :
    q = f p := by
  obtain ⟨gone, hroots, -⟩ := h
  rw [hroots, RootRegistry.get?_without, RootRegistry.get?_mapAddresses] at hq
  split at hq
  · cases hq
  · obtain ⟨p', hp', rfl⟩ := Option.map_eq_some_iff.1 hq
    rw [Option.some.inj (hp.symm.trans (get?_purged hp'))]

theorem get?_of_refused {error : HeapError} (hclean : s.heap.Clean)
    (hc : s.collect = .ok (.error error) s') (p : Address) : s'.heap.get? p = s.heap.get? p := by
  rw [(purgesRoots_of_refused hc).2.2 p]
  cases hp : s.heap.get? p with
  | none => rfl
  | some c => exact congrArg some (Cell.unmark_of_not_isMarked (hclean.isMarked hp))

/-- A collection that succeeds and compacts the old generation. -/
def Compacts (s : Store) : Prop :=
  ∃ report s', s.collect = .ok (.ok report) s' ∧ report.oldCollected = true

/-- Only a collection that compacts takes an old cell elsewhere. -/
theorem get?_old_of_collect {r : Except HeapError CollectionSummary} {c : Cell}
    (hclean : s.heap.Clean) (hc : s.collect = .ok r s') (hp : p.isOld) (hget : s.heap.get? p = some c) :
    (∃ f, s'.heap.get? p = some (c.mapRefs f)) ∨ s.Compacts := by
  cases r with
  | error error =>
    refine Or.inl ⟨id, ?_⟩
    rw [get?_of_refused hclean hc p, hget, Cell.mapRefs_id]
  | ok report =>
    cases hno : report.oldCollected with
    | true => exact Or.inr ⟨report, s', hc, hno⟩
    | false => exact Or.inl ⟨_, (keepsOldCells_of_collect hclean hc hno).get?_old hp hget⟩

/-- **The old generation is stable between compactions.**  When a collection succeeds without one,
    every old cell is where it was, whether the roots reach it or not, with the same flags and
    payloads but for the addresses of young cells that the roots reach, which are the new ones;
    and roots that lead to old cells hold what they held.  A refused collection changes no cell at
    all.  So an old address may lead elsewhere only after a collection that compacts. -/
theorem collect_stands (hclean : s.heap.Clean) :
    (∀ report s', s.collect = .ok (.ok report) s' → report.oldCollected = false →
      s.heap.KeepsOldCells s.heap.newAddress s'.heap ∧
        ∀ id p q, s.heap.roots.get? id = some p → s'.heap.roots.get? id = some q →
          q = s.heap.newAddress p ∧ (p.isOld → q = p)) ∧
      (∀ error s', s.collect = .ok (.error error) s' → ∀ p, s'.heap.get? p = s.heap.get? p) ∧
      ∀ r s', s.collect = .ok r s' → ∀ p c, p.isOld → s.heap.get? p = some c →
        (∃ f, s'.heap.get? p = some (c.mapRefs f)) ∨ s.Compacts := by
  refine ⟨fun report s' hc hno => ?_, fun _ _ hc p => get?_of_refused hclean hc p,
    fun _ _ hc _ _ hp hget => get?_old_of_collect hclean hc hp hget⟩
  have hkeeps := keepsOldCells_of_collect hclean hc hno
  refine ⟨hkeeps, fun id p q hp hq => ?_⟩
  have hmoved := (readdresses_of_finished hc).get? hp hq
  exact ⟨hmoved, fun hold => hmoved.trans (hkeeps.fixed p (Or.inl hold))⟩

/-- An old cell holds the address of a young one that becomes old.  Where it was there is the new
    address now, and the address next to it, which names no cell, is what it was. -/
theorem collect_stands_warren : warren.heap.Clean ∧ ∃ report s',
    warren.collect = .ok (.ok report) s' ∧ report.oldCollected = false ∧ report.promoted = 1 ∧
      warren.heap.KeepsOldCells warren.heap.newAddress s'.heap ∧
      warren.heap.newAddress ⟨.young 1, 3⟩ = ⟨.old, 3⟩ ∧
      s'.heap.old[1]? = some (.cons (.ref ⟨.old, 3⟩) (.ref ⟨.young 1, 9⟩)) ∧
      s'.heap.roots.get? ⟨2⟩ = some ⟨.old, 2⟩ := by
  have hclean : warren.heap.Clean := by constructor <;> decide
  obtain ⟨hfinished, -⟩ := collect_stands hclean
  obtain ⟨report, s', hc, hcheck⟩ := exists_collect warren
    (fun report s' => report.oldCollected = false ∧ report.promoted = 1 ∧
      s'.heap.old[1]? = some (.cons (.ref ⟨.old, 3⟩) (.ref ⟨.young 1, 9⟩)) ∧
      s'.heap.roots.get? ⟨2⟩ = some ⟨.old, 2⟩ ∧
      s'.heap.roots.get? ⟨4⟩ = some ⟨.old, 3⟩) (by cbv)
  obtain ⟨hno, hpromoted, hcell, hroot, hroot'⟩ := of_decide_eq_true hcheck
  obtain ⟨hkeeps, hroots⟩ := hfinished report s' hc hno
  exact ⟨hclean, report, s', hc, hno, hpromoted, hkeeps,
    (hroots ⟨4⟩ ⟨.young 1, 3⟩ ⟨.old, 3⟩ (by decide) hroot').1.symm, hcell, hroot⟩

/-! ## Runs -/

theorem contains_old_of_collect {r : Except HeapError CollectionSummary} (hclean : s.heap.Clean)
    (hc : s.collect = .ok r s') (hp : p.isOld) (hcontains : s.heap.contains p) :
    s'.heap.contains p ∨ s.Compacts := by
  obtain ⟨c, hget⟩ := Heap.contains_iff.1 hcontains
  refine (get?_old_of_collect hclean hc hp hget).imp_left fun ⟨f, hf⟩ => ?_
  exact Heap.contains_iff.2 ⟨_, hf⟩

theorem contains_of_appends {count : Nat} {r : Except HeapError Address} (ha : s.Appends count r s')
    (hcontains : s.heap.contains p) : s'.heap.contains p := by
  obtain ⟨_, _, -, rfl, -⟩ := ha
  obtain ⟨c, hget⟩ := Heap.contains_iff.1 hcontains
  exact Heap.contains_iff.2 ⟨c, Heap.get?_append hget⟩

theorem contains_old_of_allocate {count : Nat} {r : Except HeapError Address}
    (hh : s.heap.WellFormed) (hclean : s.heap.Clean) (ha : s.allocate count = .ok r s') (hp : p.isOld)
    (hcontains : s.heap.contains p) : s'.heap.contains p ∨ s.Compacts := by
  rcases allocate_outcomes hh ha with ⟨-, -, rfl⟩ | ⟨-, -, happends⟩ |
    ⟨-, -, -, u, hm, ⟨_, hc, -⟩ | ⟨_, t, hc, hends⟩⟩
  · exact Or.inl hcontains
  · exact Or.inl (contains_of_appends happends hcontains)
  · rw [← hm.heap]
    exact contains_old_of_collect hclean hc hp hcontains
  · rw [← hm.heap]
    refine (contains_old_of_collect hclean hc hp hcontains).imp_left fun ht => ?_
    rcases hends with ⟨-, rfl⟩ | happends
    · exact ht
    · exact contains_of_appends happends ht

/-- **An old address goes stale only when a collection compacts**, whatever a client does. -/
theorem Step.contains_old {collected : Bool} (h : s.Step collected s') (hh : s.heap.WellFormed)
    (hclean : s.heap.Clean) (hp : p.isOld) (hcontains : s.heap.contains p) :
    s'.heap.contains p ∨ s.Compacts := by
  cases h with
  | outside => exact Or.inl hcontains
  | roots => exact Or.inl hcontains
  | write hw =>
    refine Or.inl ?_
    rcases write_ends (Or.inl hw) with ⟨c, -, rfl⟩ | rfl
    · obtain ⟨f, hf⟩ := (givesUp_releaseSlot (s.mapHeap (·.put _ _)) (c.slot _)).exists_mapRoots
      rw [hf]
      exact (Heap.contains_put s.heap _ _ p).trans hcontains
    · obtain ⟨f, hf⟩ := (givesUp_releaseSlot s _).exists_mapRoots
      rw [hf]
      exact hcontains
  | put => exact Or.inl ((Heap.contains_put s.heap _ _ p).trans hcontains)
  | clearMarks =>
    refine Or.inl ?_
    show s.heap.clearMarks.contains p
    rwa [hclean.clearMarks]
  | refused hc => exact contains_old_of_collect hclean hc hp hcontains
  | collect hc => exact contains_old_of_collect hclean hc hp hcontains
  | allocate ha => exact contains_old_of_allocate hh hclean ha hp hcontains
  | allocateLinked ha =>
    obtain ⟨_, t, ha₀, ⟨_, -, -, rfl⟩ | ⟨_, block, -, -, -, rfl⟩⟩ := allocateLinked_cases ha
    · exact contains_old_of_allocate hh hclean ha₀ hp hcontains
    · refine (contains_old_of_allocate hh hclean ha₀ hp hcontains).imp_left fun ht => ?_
      exact (Heap.contains_link t.heap block p).trans ht

/-- What a client does in any number of steps that leave the flags alone. -/
abbrev Steps : Store → Store → Prop := Relation.ReflTransGen fun s s' => ∃ collected, s.Step collected s'

/-- Over a whole run, an old address that names no cell any more has gone stale in a collection that
    has compacted the old generation on the way. -/
theorem contains_old_of_steps (hs : s.FlagSafe) (hrun : s.Steps s') (hp : p.isOld)
    (hcontains : s.heap.contains p) :
    s'.heap.contains p ∨ ∃ t, s.Steps t ∧ t.Compacts ∧ t.Steps s' := by
  have key : s'.FlagSafe ∧ (s'.heap.contains p ∨ ∃ t, s.Steps t ∧ t.Compacts ∧ t.Steps s') := by
    induction hrun with
    | refl => exact ⟨hs, Or.inl hcontains⟩
    | @tail t t' hrun hstep ih =>
      obtain ⟨ht, hcase⟩ := ih
      obtain ⟨collected, hlast⟩ := hstep
      refine ⟨ht.step hlast, ?_⟩
      rcases hcase with hin | ⟨u, hu, hcompacts, hrest⟩
      · exact (hlast.contains_old ht.wellFormed ht.clean hp hin).imp_right fun hcompacts =>
          ⟨t, hrun, hcompacts, .single ⟨collected, hlast⟩⟩
      · exact Or.inr ⟨u, hu, hcompacts, hrest.tail ⟨collected, hlast⟩⟩
  exact key.2

end Store

end Tenure
