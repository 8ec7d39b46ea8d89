/-
  Tenure — cells that a root keeps.

  Whatever a client does elsewhere, the cells that a root of its own leads to are found again, at
  their addresses or at those to which a collection has taken them, with what they held.

  * `Heap.Transports`: some cells are found again where a map of addresses says.
  * `Store.Transports`: what a collection, or a request for a block that may run one, does to the cells
    and to the roots; `exists_transports_collect`, `exists_transports_tidied`: each of them does this.
  * `Tenant.Transports`: the same for a client that leaves a reserve alone; `Step.exists_transports`:
    every operation does this.
-/
import Tenure.Proofs.HostileClients
import Tenure.Proofs.RootLifetimes

namespace Tenure

theorem Cell.SameBut.comp {f g : Address → Address} {c d e : Cell} (h : c.SameBut f d)
    (h' : d.SameBut g e) : c.SameBut (g ∘ f) e := by
  have key : ∀ s : Slot, (s.mapRef f).mapRef g = s.mapRef (g ∘ f) := by
    intro s
    cases s <;> rfl
  exact ⟨by rw [h'.1, h.1, key], by rw [h'.2, h.2, key]⟩

namespace Heap

variable {h h' h'' : Heap} {f g : Address → Address} {within within' : Set Address}
  {start : List Address} {p : Address}

/-- The cells at some addresses are found again where `f` says, with what they held, and without a
    mark that was not there before. -/
def Transports (within : Set Address) (h : Heap) (f : Address → Address) (h' : Heap) : Prop :=
  ∀ p ∈ within, ∀ c, h.get? p = some c →
    ∃ d, h'.get? (f p) = some d ∧ c.SameBut f d ∧ (d.isMarked → c.isMarked)

namespace Transports

theorem of_unmoved (ha : h.Unmoved within h') : Transports within h id h' := by
  intro p hp c hc
  obtain ⟨d, hd, hcd⟩ := ha p c hc
  obtain ⟨hcar, hcdr, hmarked⟩ := hcd hp
  exact ⟨d, hd, ⟨hcar.trans (Slot.mapRef_id _).symm, hcdr.trans (Slot.mapRef_id _).symm⟩, hmarked⟩

theorem of_transfers {compacting : Bool} (ht : Transfers h compacting f h')
    (hwithin : ∀ p ∈ within, h.Keeps compacting p) : Transports within h f h' := by
  intro p hp c hc
  obtain ⟨c', d, hc', hd, hsame⟩ := ht.mapsOnto.cell p (hwithin p hp)
  rw [hc] at hc'
  cases hc'
  exact ⟨d, hd, hsame, fun hm => by rw [ht.clean.isMarked hd] at hm; cases hm⟩

theorem mono (h₁ : Transports within h f h') (hsub : within' ⊆ within) : Transports within' h f h' :=
  fun p hp => h₁ p (hsub hp)

theorem trans (h₁ : Transports within h f h') (h₂ : Transports within' h' g h'')
    (hsub : ∀ p ∈ within, h.contains p → f p ∈ within') : Transports within h (g ∘ f) h'' := by
  intro p hp c hc
  obtain ⟨d, hd, hcd, hm⟩ := h₁ p hp c hc
  obtain ⟨e, he, hde, hm'⟩ := h₂ (f p) (hsub p hp (contains_iff.2 ⟨c, hc⟩)) d hd
  exact ⟨e, he, hcd.comp hde, fun hmarked => hm (hm' hmarked)⟩

theorem unmarked {c d : Cell} (hc : c.isMarked = false) (hdc : d.isMarked → c.isMarked) :
    d.isMarked = false := by
  refine Bool.eq_false_iff.2 fun hd => ?_
  rw [hdc hd] at hc
  cases hc

end Transports

theorem Finds.mono {start' : List Address} (hsub : start ⊆ start') (hp : h.Finds start p) :
    h.Finds start' p := by
  induction hp with
  | start hp hc hm => exact .start (hsub hp) hc hm
  | step _ hrefers hc hm ih => exact .step ih hrefers hc hm

theorem Finds.congr (hget : ∀ q, h'.get? q = h.get? q) (hp : h.Finds start p) : h'.Finds start p := by
  induction hp with
  | @start p c hp hc hm => exact .start hp ((hget p).trans hc) hm
  | @step p q c _ hrefers hc hm ih =>
    obtain ⟨c', hc', hq⟩ := hrefers
    exact .step ih ⟨c', (hget p).trans hc', hq⟩ ((hget q).trans hc) hm

end Heap

namespace RootRegistry

variable {roots : RootRegistry} {id : RootId} {p q : Address}

theorem mem_addresses (h : roots.get? id = some p) : p ∈ roots.addresses := by
  obtain ⟨before, after, hentries, -⟩ := List.lookup_eq_some_iff.1 h
  rw [addresses, hentries]
  exact List.mem_map_of_mem (List.mem_append_right _ List.mem_cons_self)

theorem mem_purge_iff :
    p ∈ roots.purge.1.addresses ↔ ∃ id, id ∉ roots.released ∧ (id, p) ∈ roots.entries := by
  rw [purge_eq]
  simp [addresses, without, and_comm]

theorem mem_addresses_of_purge (h : p ∈ roots.purge.1.addresses) : p ∈ roots.addresses := by
  obtain ⟨id, -, hmem⟩ := mem_purge_iff.1 h
  exact List.mem_map.2 ⟨_, hmem, rfl⟩

theorem mem_purge_insert (hp : p ∈ (roots.insert q).purge.1.addresses) :
    p ∈ roots.purge.1.addresses ∨ p = q := by
  obtain ⟨id, hid, hmem⟩ := mem_purge_iff.1 hp
  rcases List.mem_append.1 hmem with hmem | hmem
  · exact Or.inl (mem_purge_iff.2 ⟨id, hid, hmem⟩)
  · exact Or.inr (congrArg Prod.snd (List.mem_singleton.1 hmem))

theorem mem_purge_erase (hp : p ∈ (roots.erase id).purge.1.addresses) :
    p ∈ roots.purge.1.addresses := by
  obtain ⟨id', hid', hmem⟩ := mem_purge_iff.1 hp
  exact mem_purge_iff.2 ⟨id', hid', List.mem_of_mem_filter hmem⟩

theorem mem_purge_set (hp : p ∈ (roots.set id q).purge.1.addresses) :
    p ∈ roots.purge.1.addresses ∨ p = q := by
  obtain ⟨id', hid', hmem⟩ := mem_purge_iff.1 hp
  obtain ⟨e, he, heq⟩ := List.mem_map.1 hmem
  split at heq
  · exact Or.inr (congrArg Prod.snd heq).symm
  · exact Or.inl (mem_purge_iff.2 ⟨id', hid', heq ▸ he⟩)

end RootRegistry

namespace Store

variable {s t s' : Store} {f : Address → Address} {count : Nat}

/-- The cells that are still there after an operation: those that its mark phase finds, or all of
    them if there is no collection that succeeds. -/
def lasting (s s' : Store) : Set Address :=
  {p | s'.heap.counters.youngCollections = s.heap.counters.youngCollections ∨
    s.heap.purged.Finds s.heap.purged.roots.addresses p}

/-- The cells that last are found again, and so are the roots the owners of which are not gone.
    Without a collection that succeeds nothing moves. -/
structure Transports (s : Store) (f : Address → Address) (s' : Store) : Prop where
  cells : s.heap.Transports (s.lasting s') f s'.heap
  /-- No two cells come to one address. -/
  injective : Set.InjOn f {p | p ∈ s.lasting s' ∧ s.heap.contains p}
  roots : ∀ id p, id ∉ s.heap.roots.released → ¬ s.values.Leases ⟨s.heap.roots.registry, id⟩ →
    s.heap.roots.get? id = some p → s'.heap.roots.get? id = some (f p)
  /-- No root comes from elsewhere. -/
  origin : ∀ q ∈ s'.heap.purged.roots.addresses, ∃ p ∈ s.heap.purged.roots.addresses, f p = q
  still : s'.heap.counters.youngCollections = s.heap.counters.youngCollections → f = id

theorem exists_transports_collect {r : Except HeapError CollectionSummary} (hc : s.collect = .ok r s') :
    ∃ f, s.Transports f s' := by
  have hpurged : s.heap.purged.roots =
      { s.heap.roots.without s.heap.roots.released with released := [] } := s.heap.roots.purge_eq
  cases r with
  | ok report =>
    obtain ⟨f, gone, hf, hroots, hgone⟩ := exists_transfers hc
    have hmore := youngCollections_collect hc
    have hfound : ∀ p ∈ s.lasting s', s.heap.purged.Keeps report.oldCollected p := fun p hp =>
      Or.inr (Or.inl (hp.resolve_left (by omega)))
    refine ⟨f, ?_, hf.mapsOnto.bijOn.injOn.mono fun p hp => hfound p hp.1,
      fun id p hreleased hleases hp => ?_, fun q hq => ?_, fun hsame => by omega⟩
    · have htransports : s.heap.purged.Transports _ f s'.heap := .of_transfers hf hfound
      exact htransports
    · rw [hroots, RootRegistry.get?_without, if_neg fun hmem => hleases (hgone id hmem),
        RootRegistry.get?_mapAddresses, hpurged]
      show ((s.heap.roots.without s.heap.roots.released).get? id).map f = _
      rw [RootRegistry.get?_without, if_neg hreleased, hp]
      rfl
    · have hq' := RootRegistry.mem_addresses_of_purge hq
      rw [hroots] at hq'
      exact RootRegistry.exists_of_mem_without hq'
  | error error =>
    obtain ⟨⟨hroots, -⟩, -, hget⟩ := purgesRoots_of_refused hc
    refine ⟨id, .mono (.of_unmoved (.of_unmark hget)) (Set.subset_univ _), Set.injOn_id _,
      fun id p hreleased _ hp => ?_, fun q hq => ?_, fun _ => rfl⟩
    · rw [hroots, hpurged]
      show (((s.heap.roots.without s.heap.roots.released).mapAddresses _).without []).get? id = _
      rw [RootRegistry.get?_without, if_neg List.not_mem_nil, RootRegistry.get?_mapAddresses,
        RootRegistry.get?_without, if_neg hreleased, hp]
      rfl
    · have hq' := RootRegistry.mem_addresses_of_purge hq
      rw [hroots] at hq'
      exact RootRegistry.exists_of_mem_without hq'

theorem exists_transports_tidied (h : s.Tidied t) : ∃ f, s.Transports f t := by
  obtain ⟨hheap, -⟩ | ⟨event, r, u, hc, hheap, -⟩ := h
  · refine ⟨id, ?_, Set.injOn_id _, fun id p _ _ hp => ?_, fun q hq => ⟨q, ?_, rfl⟩, fun _ => rfl⟩
    · exact .mono (.of_unmoved (.of_get? fun p => by rw [hheap])) (Set.subset_univ _)
    · rw [hheap]
      exact hp
    · rwa [hheap] at hq
  · -- neither the heap nor the values depend on the note
    obtain ⟨f, hf⟩ := exists_transports_collect hc
    have hcells : s.heap.Transports (s.lasting u) f u.heap := hf.cells
    have hinjective : Set.InjOn f {p | p ∈ s.lasting u ∧ s.heap.contains p} := hf.injective
    refine ⟨f, ?_, ?_, hheap ▸ hf.roots, hheap ▸ hf.origin, hheap ▸ hf.still⟩
    · rwa [lasting, hheap]
    · rwa [lasting, hheap]

theorem Transports.blockAnswer {a : Except HeapError Address} (hf : s.Transports f t)
    (hg : s.BlockAnswer t count a s') : s.Transports f s' where
  cells := by
    have hcells := hf.cells.trans (.of_unmoved (hg.unmoved Set.univ)) fun p _ _ => Set.mem_univ _
    rwa [lasting, hg.counters]
  injective := by
    rw [lasting, hg.counters]
    exact hf.injective
  roots id p hreleased hleases hp := by
    rw [hg.roots]
    exact hf.roots id p hreleased hleases hp
  origin q hq := by
    have hpurged : s'.heap.purged.roots = t.heap.purged.roots := congrArg (·.purge.1) hg.roots
    rw [hpurged] at hq
    exact hf.origin q hq
  still := by
    rw [hg.counters]
    exact hf.still

end Store

namespace Tenant

variable {r r' : Reserve} {t t' t'' : Tenant} {f g : Address → Address}

/-- A mark phase starts from a root that has never had an owner. -/
theorem Orderly.mem_purged (ht : t.Orderly) {id : RootId} {p : Address}
    (hp : t.roots.get? id = some p) (hid : t.own id ∉ t.leased) :
    p ∈ t.store.heap.purged.roots.addresses := by
  have hpurged : t.store.heap.purged.roots =
      { t.roots.without t.roots.released with released := [] } := t.roots.purge_eq
  have hentry : (t.roots.without t.roots.released).get? id = some p := by
    rw [RootRegistry.get?_without, if_neg fun hmem => hid (ht.released id hmem).1]
    exact hp
  rw [hpurged]
  exact RootRegistry.mem_addresses hentry

/-- The cells that a client leaves alone are found again as far as they last, and so are the roots
    that it leaves alone and that have never had an owner. -/
structure Transports (r : Reserve) (t : Tenant) (f : Address → Address) (t' : Tenant) : Prop where
  cells : t.store.heap.Transports (r.cells ∩ t.store.lasting t'.store) f t'.store.heap
  roots : ∀ id ∈ r.roots, t.own id ∉ t.leased → ∀ p, t.roots.get? id = some p →
    t'.roots.get? id = some (f p)
  still : t'.collections = t.collections → f = id

theorem Transports.of_store (ht : t.Orderly) (h : t.store.Transports f t'.store) :
    t.Transports r f t' where
  cells := h.cells.mono fun _ hp => hp.2
  roots id _ hid p hp := h.roots id p (fun hreleased => hid (ht.released id hreleased).1)
    (fun hleases => hid (ht.owned _ (Or.inr hleases))) hp
  still := h.still

/-- Nothing moves. -/
theorem Transports.of_unmoved (h : t.store.heap.Unmoved r.cells t'.store.heap)
    (hroots : ∀ id ∈ r.roots, ∀ p, t.roots.get? id = some p → t'.roots.get? id = some p) :
    t.Transports r id t' where
  cells := .mono (.of_unmoved h) fun _ hp => hp.1
  roots id hid _ p hp := hroots id hid p hp
  still _ := rfl

/-- **The cells and the roots that a client leaves alone** are found again after every operation. -/
theorem Step.exists_transports (h : Step r t t') (ht : t.Orderly) : ∃ f, t.Transports r f t' := by
  have hstill : t'.collections = t.collections →
      (∀ id ∈ r.roots, ∀ p, t.roots.get? id = some p → t'.roots.get? id = some p) →
        ∃ f, t.Transports r f t' := fun hsame hroots => ⟨id, .of_unmoved (h.unmoved hsame) hroots⟩
  cases h with
  | addRoot ha =>
    obtain ⟨-, rfl, rfl⟩ := Store.addRoot_eq_ok_iff.1 ha
    exact hstill rfl fun _ _ _ hp => RootRegistry.get?_insert_of_get? hp
  | lease hl =>
    obtain ⟨-, rfl, rfl⟩ := Store.leaseRoot_eq_ok_iff.1 hl
    exact hstill rfl fun _ _ _ hp => RootRegistry.get?_insert_of_get? hp
  | @setRoot id p hid =>
    refine hstill rfl fun id' hid' q hq => ?_
    have hne : id' ≠ id := fun heq => hid (heq ▸ hid')
    exact (RootRegistry.get?_set t.roots id p id').trans (by rw [hq, Option.map_some, if_neg hne])
  | @eraseRoot id hid =>
    refine hstill rfl fun id' hid' q hq => ?_
    have hne : id' ≠ id := fun heq => hid (heq ▸ hid')
    exact (RootRegistry.get?_erase hne).trans hq
  | @dropLease root rest hp =>
    refine hstill rfl fun id _ p hp => ?_
    obtain ⟨hentries, -⟩ := release_spares t.roots root
    exact (congrArg (List.lookup id) hentries).trans hp
  | newValue name => exact hstill rfl fun _ _ _ => id
  | openFile ho =>
    cases ho
    exact hstill rfl fun _ _ _ => id
  | entrust name hp => exact hstill rfl fun _ _ _ => id
  | retain hv hlive => exact hstill rfl fun _ _ _ => id
  | @release v rest hv hp =>
    obtain ⟨gone, hgone, -⟩ := (Store.givesUp_release t.store v).heap
    refine hstill (congrArg (·.counters.youngCollections) hgone) fun id _ p hp => ?_
    exact (congrArg (·.roots.get? id) hgone).trans hp
  | put hp hc hm hperm hcount =>
    refine hstill (congrArg Counters.youngCollections (Heap.counters_put _ _ _)) fun id _ p hp => ?_
    exact (congrArg (·.get? id) (Heap.roots_put _ _ _)).trans hp
  | allocate ha =>
    obtain ⟨u, hu⟩ := Store.exists_blockAnswer_allocate ha
    obtain ⟨f, hf⟩ := Store.exists_transports_tidied hu.tidied
    exact ⟨f, .of_store ht (hf.blockAnswer hu)⟩
  | allocateLinked ha =>
    obtain ⟨u, hu⟩ := Store.exists_blockAnswer_allocateLinked ha
    obtain ⟨f, hf⟩ := Store.exists_transports_tidied hu.tidied
    exact ⟨f, .of_store ht (hf.blockAnswer hu)⟩
  | collect hc =>
    obtain ⟨f, hf⟩ := Store.exists_transports_collect hc
    exact ⟨f, .of_store ht hf⟩
  | clearMarks => exact hstill rfl fun _ _ _ => id

end Tenant

end Tenure
