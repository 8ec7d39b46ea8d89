/-
  Tenure — what a request adds to a heap.

  As long as nothing moves, a request for a block leaves alone what is there, and the new cells refer to
  new cells only.  A cell that cannot be reached remains so.

  * `Heap.AddsApart`: what is new refers to what is new, or to a few more addresses; `AddsApart.avoids`.
  * `addsApart_collect`, `addsApart_allocate`, `addsApart_allocateLinked`, `addsApart_filledList`:
    requests, and collections that are refused; `addsApart_push`: a list that is hung onto a chain.
  * `Tenant.Hides`: a value in a cell to which nothing leads; `Requests.count_lt_of_discarded`: the
    reference is gone when a request has moved the cells.
-/
import Tenure.Proofs.UnreachableCells
import Tenure.Proofs.ValueCounts
import Tenure.Proofs.ChainPush

namespace Tenure

namespace Heap

variable {h h' : Heap} {extra : Set Address} {p q r : Address} {c : Cell}

theorem Reaches.contains_singleton (hp : h.Reaches [q] p) : h.contains q := by
  induction hp with
  | start hs hc =>
    obtain rfl := List.mem_singleton.1 hs
    exact hc
  | step _ _ _ ih => exact ih

/-- The cells that are there refer to nothing more, and new cells and roots to new cells or to a few
    more addresses. -/
structure AddsApart (h : Heap) (extra : Set Address) (h' : Heap) : Prop where
  old : ∀ q r, h.contains q → h'.RefersTo q r → h.RefersTo q r
  new : ∀ q r, ¬ h.contains q → h'.RefersTo q r → ¬ h.contains r ∨ r ∈ extra
  roots : ∀ q ∈ h'.roots.addresses, q ∈ h.roots.addresses ∨ ¬ h.contains q ∨ q ∈ extra

/-- A cell to which nothing leads remains so. -/
theorem AddsApart.avoids (ha : h.AddsApart extra h') (hextra : ∀ q ∈ extra, ¬ h.Reaches [q] p) :
    h.Avoids p h' := by
  have hnone : ∀ q, ¬ h.contains q ∨ q ∈ extra → ¬ h.Reaches [q] p := by
    rintro q (hq | hq)
    · exact fun hreaches => hq hreaches.contains_singleton
    · exact hextra q hq
  refine ⟨fun q hq => (ha.roots q hq).imp_right (hnone q), fun q r hr => ?_⟩
  by_cases hq : h.contains q
  · exact Or.inl (ha.old q r hq hr)
  · exact Or.inr (hnone r (ha.new q r hq hr))

theorem blank_of_grow {count : Nat} (hg : h.grow count = .ok (h', p)) (hc : h'.get? q = some c)
    (hout : ¬ h.contains q) : c = .blank := by
  obtain ⟨first, -, hg⟩ := bind_eq_ok_iff.1 hg
  cases hg
  have hnone : h.get? q = none := Option.eq_none_iff_forall_ne_some.2 fun d hd =>
    hout (contains_iff.2 ⟨d, hd⟩)
  by_cases hq : q.space = h.side.space
  · rw [get?_of_active _ hq] at hnone
    rw [get?_of_active _ (by exact hq)] at hc
    have hle := Array.getElem?_eq_none_iff.1 hnone
    change (h.active ++ Array.replicate count Cell.blank)[q.position]? = some c at hc
    rw [Array.getElem?_append_right hle] at hc
    exact (Array.mem_replicate.1 (Array.mem_of_getElem? hc)).2
  · by_cases hold : q.isOld
    · rw [get?_eq_cellAt _ hold] at hnone hc
      cases hnone.symm.trans hc
    · rw [get?_of_elsewhere _ hold (by exact hq)] at hc
      cases hc

end Heap

namespace Store

variable {s s' t : Store} {count : Nat} {p q r : Address} {c : Cell} {f : Address → Address}

/-- If nothing moves, it is enough to look at the new cells. -/
theorem Transports.addsApart (hf : s.Transports f s')
    (hsame : s'.heap.counters.youngCollections = s.heap.counters.youngCollections)
    (hnew : ∀ q r, ¬ s.heap.contains q → s'.heap.RefersTo q r → ¬ s.heap.contains r) :
    s.heap.purged.AddsApart ∅ s'.heap.purged := by
  obtain rfl := hf.still hsame
  refine ⟨fun q r hq hr => ?_, fun q r hq hr => Or.inl (hnew q r hq hr), fun q hq => ?_⟩
  · obtain ⟨c, hc⟩ := Heap.contains_iff.1 hq
    obtain ⟨d, hd, hcd, -⟩ := hf.cells q (Or.inl hsame) c hc
    obtain ⟨d', hd', hr⟩ := hr
    obtain rfl : d = d' := Option.some.inj (hd.symm.trans hd')
    rw [hcd.references, List.map_id] at hr
    exact ⟨c, hc, hr⟩
  · obtain ⟨p, hp, rfl⟩ := hf.origin q hq
    exact Or.inl hp

theorem addsApart_collect {a : Except HeapError CollectionSummary} (hc : s.collect = .ok a s')
    (hsame : s'.heap.counters.youngCollections = s.heap.counters.youngCollections) :
    s.heap.purged.AddsApart ∅ s'.heap.purged := by
  obtain ⟨f, hf⟩ := exists_transports_collect hc
  cases a with
  | ok report =>
    have hmore := youngCollections_collect hc
    omega
  | error error =>
    obtain ⟨-, -, hget⟩ := purgesRoots_of_refused hc
    refine hf.addsApart hsame fun q r hq hr => ?_
    obtain ⟨c, hc, -⟩ := hr
    rw [hget] at hc
    obtain ⟨d, hd, -⟩ := Option.map_eq_some_iff.1 hc
    exact absurd (Heap.contains_iff.2 ⟨d, hd⟩) hq

theorem contains_of_tidied (h : s.Tidied t)
    (hsame : t.heap.counters.youngCollections = s.heap.counters.youngCollections)
    (hq : t.heap.contains q) : s.heap.contains q := by
  obtain ⟨hheap, -⟩ | ⟨event, a, u, hc, hheap, -⟩ := h
  · rwa [hheap] at hq
  · rw [hheap] at hq hsame
    cases a with
    | ok report =>
      have hmore : u.heap.counters.youngCollections = s.heap.counters.youngCollections + 1 :=
        youngCollections_collect (s := s.log event) hc
      omega
    | error error =>
      obtain ⟨-, -, hget⟩ := purgesRoots_of_refused hc
      obtain ⟨c, hc⟩ := Heap.contains_iff.1 hq
      rw [hget] at hc
      obtain ⟨d, hd, -⟩ := Option.map_eq_some_iff.1 hc
      exact Heap.contains_iff.2 ⟨d, hd⟩

/-- If nothing moves, the new cells are blank. -/
theorem blank_of_new {a : Except HeapError Address} (ha : s.allocate count = .ok a s')
    (hsame : s'.heap.counters.youngCollections = s.heap.counters.youngCollections)
    (hc : s'.heap.get? q = some c) (hout : ¬ s.heap.contains q) : c = .blank := by
  obtain ⟨t, htidied, ⟨_, -, rfl⟩ | ⟨heap, p, -, -, -, hg, rfl⟩⟩ := allocate_cases ha
  · exact absurd (contains_of_tidied htidied hsame (Heap.contains_iff.2 ⟨c, hc⟩)) hout
  · refine Heap.blank_of_grow hg hc fun hq => hout (contains_of_tidied htidied ?_ hq)
    obtain ⟨first, -, hg⟩ := bind_eq_ok_iff.1 hg
    cases hg
    exact hsame

theorem addsApart_allocate {a : Except HeapError Address} (ha : s.allocate count = .ok a s')
    (hsame : s'.heap.counters.youngCollections = s.heap.counters.youngCollections) :
    s.heap.purged.AddsApart ∅ s'.heap.purged := by
  obtain ⟨f, hf, -⟩ := exists_transports_allocate ha
  refine hf.addsApart hsame fun q r hq hr => ?_
  obtain ⟨c, hc, hr⟩ := hr
  rw [blank_of_new ha hsame hc hq] at hr
  cases hr

theorem addsApart_allocateLinked {a : Except HeapError Address} (ha : s.allocateLinked count = .ok a s')
    (hsame : s'.heap.counters.youngCollections = s.heap.counters.youngCollections) :
    s.heap.purged.AddsApart ∅ s'.heap.purged := by
  obtain ⟨a₀, t, ha₀, ⟨_, -, -, rfl⟩ | ⟨p, block, rfl, rfl, hb, rfl⟩⟩ := allocateLinked_cases ha
  · exact addsApart_allocate ha₀ hsame
  obtain ⟨f, hf, hapart⟩ := exists_transports_allocateLinked ha
  have hsame₀ : t.heap.counters.youngCollections = s.heap.counters.youngCollections := by
    rw [← hsame]
    exact congrArg Counters.youngCollections (Heap.congr_link Heap.counters_put _ _).symm
  refine hf.addsApart hsame fun q r hq hr hcontains => ?_
  obtain rfl := hf.still hsame
  obtain ⟨c, hc, hr⟩ := hr
  by_cases hmem : q ∈ block
  · obtain ⟨hleads, hcars⟩ := leads_of_allocateLinked ha hb
    obtain ⟨c', hc', hcar⟩ := hcars q hmem
    obtain rfl : c = c' := Option.some.inj (hc.symm.trans hc')
    have hnext : c.cdr.ref? = some r := by
      rw [Cell.references, hcar] at hr
      exact Option.mem_toList.1 hr
    exact hapart p block rfl hb r (Or.inl hsame) hcontains (hleads.ref_mem hmem hc hnext)
  · rw [heap_mapHeap, Heap.get?_link_of_not_mem hmem] at hc
    rw [blank_of_new ha₀ hsame₀ hc hq] at hr
    cases hr

end Store

/-- A list that is filled with numbers. -/
theorem addsApart_filledList {s s' : Store} {length iteration : Nat} {a : Except RunError Address}
    (h : (filledList length iteration).run s = .ok a s')
    (hsame : s'.heap.counters.youngCollections = s.heap.counters.youngCollections) :
    s.heap.purged.AddsApart ∅ s'.heap.purged := by
  obtain ⟨f, hf, -⟩ := exists_transports_filledList h
  rcases filledList_cases h with ⟨error, ha, -⟩ | ⟨p, u, block, ha, hb, hfill, -⟩
  · exact Store.addsApart_allocateLinked ha hsame
  · obtain ⟨-, hcars⟩ := Store.leads_of_allocateLinked ha hb
    obtain ⟨-, hwritten, hfills⟩ := Tenant.fillCells_cases (r := {}) (t := { store := u })
      (Address.nodup_block hb) (fun q hq => ⟨fun hmem => hmem, hcars q hq⟩) hfill
    have hadds := Store.addsApart_allocateLinked ha (by rw [← hwritten.counters]; exact hsame)
    refine hf.addsApart hsame fun q r hq hr => ?_
    exact (hadds.new q r hq (hwritten.refersTo hfills hr)).resolve_right (Set.notMem_empty r)

/-! ## Chains -/

open RetainedLists

/-- While the spine cell is allocated there is a root on the list. -/
theorem addsApart_spineFor {s s' : Store} {list : Address} {a : Except RunError (Address × Address)}
    (h : (spineFor list).run s = .ok a s')
    (hsame : s'.heap.counters.youngCollections = s.heap.counters.youngCollections) :
    s.heap.purged.AddsApart {list} s'.heap.purged ∧
      ∀ q c, s'.heap.get? q = some c → ¬ s.heap.contains q → c = .blank := by
  obtain ⟨-, a₁, u, ha, rfl, -⟩ := spineFor_cases h
  have hadds := Store.addsApart_allocate ha hsame
  refine ⟨⟨hadds.old, fun q r hq hr => (hadds.new q r hq hr).imp_right nofun, fun q hq => ?_⟩,
    fun q c hc hout => ?_⟩
  · rcases hadds.roots q (RootRegistry.mem_purge_erase hq) with hold | hnew | hnone
    · exact (RootRegistry.mem_purge_insert hold).imp_right Or.inr
    · exact Or.inr (Or.inl hnew)
    · cases hnone
  · exact Store.blank_of_new ha hsame hc hout

/-- **A list that is hung onto a chain.**  The root of the chain has no owner. -/
theorem Tenant.addsApart_push {t : Tenant} {s' : Store} {chain : RetainedLists} {list : Address}
    {iteration : Nat} {a : Except RunError RetainedLists} (ht : t.Orderly)
    (hchain : ∀ id, chain.root = some id → t.own id ∉ t.leased)
    (h : (chain.push list iteration).run t.store = .ok a s')
    (hsame : s'.heap.counters.youngCollections = t.store.heap.counters.youngCollections) :
    t.store.heap.purged.AddsApart {q | q = list ∨ q ∈ t.store.heap.purged.roots.addresses}
      s'.heap.purged := by
  rcases push_cases h with ⟨e, hspine, rfl⟩ | ⟨q, list', w, u, hspine, hwrites, hends⟩
  · obtain ⟨hadds, -⟩ := addsApart_spineFor hspine hsame
    exact ⟨hadds.old, fun q r hq hr => (hadds.new q r hq hr).imp_right Or.inl,
      fun q hq => (hadds.roots q hq).imp_right (Or.imp_right Or.inl)⟩
  obtain ⟨f, hf⟩ := Tenant.exists_allocatesSpine ht hspine
  obtain ⟨rfl, hblank, hapart⟩ := hf.spine q list' rfl
  obtain ⟨-, ⟨d, hd, -, hcar, hcdr⟩, hothers, hroots, hcounters, -⟩ := Tenant.writesSpine_cases (r := {})
    (t := { store := w }) hblank (Set.notMem_empty q) hwrites
  -- only the roots differ from what the writes have left
  have hends' : (∀ x, s'.heap.get? x = u.heap.get? x) ∧ s'.heap.counters = u.heap.counters ∧
      ∀ x ∈ s'.heap.purged.roots.addresses, x ∈ w.heap.purged.roots.addresses ∨ x = q := by
    have hpurged : u.heap.purged.roots = w.heap.purged.roots := congrArg (·.purge.1) hroots
    rw [← hpurged]
    cases hroot : chain.root with
    | none =>
      rw [hroot] at hends
      obtain ⟨-, -, rfl⟩ := Store.addRoot_eq_ok_iff.1 hends.1
      exact ⟨fun _ => rfl, rfl, fun x => RootRegistry.mem_purge_insert⟩
    | some id =>
      rw [hroot] at hends
      obtain ⟨rfl, -⟩ := hends
      exact ⟨fun _ => rfl, rfl, fun x => RootRegistry.mem_purge_set⟩
  obtain ⟨hget, hcounters', haddresses⟩ := hends'
  have hsame' : w.heap.counters.youngCollections = t.store.heap.counters.youngCollections := by
    rw [← hsame, hcounters', hcounters]
  obtain ⟨hadds, hnew⟩ := addsApart_spineFor hspine hsame'
  obtain rfl := hf.still hsame'
  have hq : ¬ t.store.heap.contains q := fun hmem => hapart q (Or.inl hsame') hmem rfl
  have hrefers : ∀ x y, x ≠ q → s'.heap.RefersTo x y → w.heap.RefersTo x y := by
    rintro x y hne ⟨c, hc, hy⟩
    exact ⟨c, by rw [← hothers x hne, ← hget]; exact hc, hy⟩
  refine ⟨fun x y hx hy => ?_, fun x y hx hy => ?_, fun x hx => ?_⟩
  · exact hadds.old x y hx (hrefers x y (fun heq => hq (heq ▸ hx)) hy)
  · by_cases hxq : x = q
    · subst hxq
      right
      obtain ⟨c, hc, hy⟩ := hy
      obtain rfl : c = d := Option.some.inj ((hget x).symm.trans hc |>.symm.trans hd)
      rw [Cell.references, hcar, hcdr] at hy
      rcases List.mem_append.1 hy with hy | hy
      · exact Or.inl (List.mem_singleton.1 hy)
      · -- the spine cell before is where the root of the chain was
        obtain ⟨id, hroot, hprevious⟩ := Option.bind_eq_some_iff.1 (Option.mem_toList.1 hy)
        obtain ⟨p, hp⟩ := Tenant.exists_get? (hf.losesOnlyDropped.sublist.mem (Tenant.mem_ids hprevious))
        have hkept := hf.roots id (hchain id hroot) p hp
        obtain rfl : y = p := Option.some.inj (hprevious.symm.trans hkept)
        exact Or.inr (ht.mem_purged hp (hchain id hroot))
    · obtain ⟨c, hc, hy⟩ := hrefers x y hxq hy
      rw [hnew x c hc hx] at hy
      cases hy
  · rcases haddresses x hx with hold | rfl
    · exact (hadds.roots x hold).imp_right (Or.imp_right Or.inl)
    · exact Or.inr (Or.inl hq)

/-! ## Values in cells to which nothing leads -/

namespace Tenant

variable {r : Reserve} {t t' : Tenant} {p list : Address} {v : ValueId} {n : Nat}

/-- A reference to a value is in a young cell to which nothing leads. -/
def Hides (t : Tenant) (p : Address) (v : ValueId) : Prop :=
  ∃ c, t.store.heap.get? p = some c ∧ c.car = .value v ∧ c.isMarked = false ∧ ¬ p.isOld ∧
    ¬ t.store.heap.purged.Rooted p

/-- It is still there if nothing has moved and nobody has linked the cell. -/
theorem Hides.carry (ht : t.Hides p v) {W : Set Address}
    (hf : t.store.heap.Transports W id t'.store.heap) (hp : p ∈ W)
    (havoids : t.store.heap.purged.Avoids p t'.store.heap.purged) : t'.Hides p v := by
  obtain ⟨c, hc, hcar, hm, hyoung, hout⟩ := ht
  obtain ⟨c', hc', ⟨hcar', -⟩, hmarked⟩ := hf p hp c hc
  refine ⟨c', hc', ?_, Heap.Transports.unmarked hm hmarked, hyoung,
    havoids.not_rooted (Heap.contains_iff.2 ⟨c, hc⟩) hout⟩
  rw [hcar', hcar]
  rfl

/-- A root on something else does not lead to the cell. -/
theorem Hides.rooting (ht : t.Hides p v) (hlist : ¬ t.store.heap.purged.Reaches [list] p) :
    (t.rooting list).Hides p v := by
  refine ht.carry (.of_unmoved (.of_get? fun _ => rfl)) (Set.mem_univ p)
    ⟨fun q hq => ?_, fun q r hr => Or.inl hr⟩
  have hq' : q ∈ (t.roots.insert list).purge.1.addresses := hq
  rcases RootRegistry.mem_purge_insert hq' with hold | rfl
  · exact Or.inl hold
  · exact Or.inr hlist

theorem Requests.count_lt_of_discarded (h : t.Requests t') (ht : t.Balanced) (hhides : t.Hides p v)
    (hheld : 0 < t.handles.count v) (hmore : t'.collections ≠ t.collections) :
    t'.store.values.count v < t.store.values.count v := by
  obtain ⟨u, hstep, hrest, hsame⟩ := h
  obtain ⟨c, hc, hcar, hm, hyoung, hout⟩ := hhides
  have hlive := ht.count_eq v
  obtain ⟨-, hhandles⟩ := hstep.count_le (Set.mem_univ v) (by omega)
  obtain ⟨hle, -⟩ := count_le_of_steps hrest (hstep.balanced ht) (Set.mem_univ v) (by omega)
  have hlt := hstep.count_lt_of_discarded ht (hsame ▸ hmore) hc hcar hm hyoung hout
  omega

end Tenant

end Tenure
