/-
  Tenure — roots and their owners in order.

  Whatever a client does with its roots and their owners, no handle is given out twice, a root has at
  most one owner, and the roots noted are those the owners of which are gone.

  * `Tenant.Orderly`: this.
  * `PurgesRoots.ids`: the roots that are left after a collection.
  * `Effect.orderly`, `Renewal.orderly`: what an operation keeps.
  * `Tenant.History`: all that a client may have done; `History.orderly`: what all of it keeps.
-/
import Tenure.Proofs.Tenants

namespace Tenure

namespace Tenant

variable {r : Reserve} {t t' : Tenant} {gone : List RootLease} {root : RootLease}

/-! ## Roots and owners in order -/

/-- The roots and their owners are in order: no handle was given out twice, an owned root has one
    owner or its owner is gone, and those roots are noted the owners of which are gone. -/
structure Orderly (t : Tenant) : Prop where
  sorted : t.ids.Pairwise fun id id' => id.serial < id'.serial
  registered : ∀ id ∈ t.ids, t.own id ∈ t.issued
  issued : t.issued.Nodup
  bounded : ∀ root ∈ t.issued, root.registry < t.roots.registry ∨
    (root.registry = t.roots.registry ∧ root.id.serial < t.roots.next)
  leased : ∀ root ∈ t.leased, root ∈ t.issued
  owned : ∀ root, t.Owned root → root ∈ t.leased
  single : ∀ root, t.keepers root ≤ 1
  released : ∀ id ∈ t.roots.released, t.Dropped (t.own id)
  noted : ∀ id ∈ t.ids, t.Dropped (t.own id) → id ∈ t.roots.released

/-- A handle that was given out is not the next one. -/
theorem Orderly.serial_lt (ht : t.Orderly) {id : RootId} (hid : t.own id ∈ t.issued) :
    id.serial < t.roots.next := by
  rcases ht.bounded _ hid with hlt | ⟨-, hlt⟩
  · exact absurd hlt (Nat.lt_irrefl _)
  · exact hlt

theorem Orderly.next_not_mem (ht : t.Orderly) : t.own ⟨t.roots.next⟩ ∉ t.issued := fun hid =>
  absurd (ht.serial_lt hid) (Nat.lt_irrefl _)

/-- No root is registered, and owners go. -/
theorem Orderly.lose (ht : t.Orderly) (hregistry : t'.roots.registry = t.roots.registry)
    (hnext : t'.roots.next = t.roots.next) (hids : t'.ids.Sublist t.ids)
    (hkeepers : ∀ root, t'.keepers root + gone.count root = t.keepers root)
    (howned : ∀ root, t'.Owned root → t.Owned root) (hissued : t'.issued = t.issued)
    (hleased : t'.leased = t.leased)
    (hreleased : ∀ id ∈ t'.roots.released, id ∈ t.roots.released ∨ t.own id ∈ gone)
    (hnoted : ∀ id ∈ t'.ids, id ∈ t.roots.released ∨ t.own id ∈ gone → id ∈ t'.roots.released) :
    t'.Orderly := by
  have hown : ∀ id, t'.own id = t.own id := fun id => by rw [own, hregistry, own]
  refine ⟨ht.sorted.sublist hids, fun id hid => ?_, hissued ▸ ht.issued, ?_, ?_, fun root hroot => ?_,
    fun root => ?_, fun id hid => ?_, fun id hid hdropped => ?_⟩
  · rw [hown, hissued]
    exact ht.registered id (hids.mem hid)
  · rw [hissued, hregistry, hnext]
    exact ht.bounded
  · rw [hissued, hleased]
    exact ht.leased
  · rw [hleased]
    exact ht.owned root (howned root hroot)
  · have := hkeepers root
    have := ht.single root
    omega
  · have hcount := hkeepers (t.own id)
    rw [Dropped, hown, hleased]
    rcases hreleased id hid with hold | hgone
    · obtain ⟨hleased₀, hzero⟩ := ht.released id hold
      exact ⟨hleased₀, by omega⟩
    · have hpos := List.count_pos_iff.2 hgone
      have hone := ht.single (t.own id)
      exact ⟨ht.owned _ (owned_of_keepers (by omega)), by omega⟩
  · rw [Dropped, hown, hleased] at hdropped
    obtain ⟨hleased₀, hzero⟩ := hdropped
    have hcount := hkeepers (t.own id)
    refine hnoted id hid ?_
    rcases Nat.eq_zero_or_pos (gone.count (t.own id)) with hnone | hpos
    · exact Or.inl (ht.noted id (hids.mem hid) ⟨hleased₀, by omega⟩)
    · exact Or.inr (List.count_pos_iff.1 hpos)

theorem PurgesRoots.registry {f : Address → Address} (h : t.PurgesRoots f gone t') :
    t'.roots.registry = t.roots.registry := by
  have hpurged : t.store.heap.purged.roots =
      { t.roots.without t.roots.released with released := [] } := t.roots.purge_eq
  rw [h.roots, hpurged]
  rfl

/-- The roots that are left after a collection. -/
theorem PurgesRoots.ids {f : Address → Address} (h : t.PurgesRoots f gone t') :
    t'.ids = t.ids.filter fun id => id ∉ t.roots.released ∧ t.own id ∉ gone := by
  have hpurged : t.store.heap.purged.roots =
      { t.roots.without t.roots.released with released := [] } := t.roots.purge_eq
  have hentries : t'.roots.entries = ((t.roots.entries.filter fun e => e.1 ∉ t.roots.released).map
      fun e => (e.1, f e.2)).filter fun e => e.1 ∉ t.roots.own gone := by
    rw [h.roots, hpurged]
    rfl
  rw [Tenant.ids, hentries, Tenant.ids]
  induction t.roots.entries with
  | nil => rfl
  | cons e rest ih =>
    have hown : e.1 ∈ t.roots.own gone ↔ t.own e.1 ∈ gone := RootRegistry.mem_own
    by_cases hreleased : e.1 ∈ t.roots.released
    · simpa [hreleased] using ih
    · by_cases hgone : t.own e.1 ∈ gone
      · simpa [hreleased, hown, hgone] using ih
      · simpa [hreleased, hown, hgone] using ih

theorem Adds.ids {p : Address} {new : List RootLease} (h : t.Adds p new t') :
    t'.ids = t.ids ++ [⟨t.roots.next⟩] := by
  rw [Tenant.ids, h.roots]
  simp [RootRegistry.insert, Tenant.ids]

theorem ids_set (id : RootId) (p : Address) :
    ids { t with store := t.store.mapHeap (·.mapRoots (·.set id p)) } = t.ids := by
  show List.map _ (List.map _ _) = _
  rw [List.map_map]
  refine List.map_congr_left fun e _ => ?_
  by_cases he : e.1 = id <;> simp [he]

theorem ids_erase (id : RootId) :
    ids { t with store := t.store.mapHeap (·.mapRoots (·.erase id)) } = t.ids.filter (· != id) := by
  show List.map _ (List.filter _ _) = _
  rw [Tenant.ids, List.filter_map]
  rfl

theorem Adds.orderly {p : Address} {new : List RootLease} (h : t.Adds p new t') (ht : t.Orderly) :
    t'.Orderly := by
  have hown : ∀ id, t'.own id = t.own id := fun id => by rw [own, h.roots]; rfl
  have hreleased : t'.roots.released = t.roots.released := by rw [h.roots]; rfl
  have hkeepers : ∀ root, t'.keepers root = new.count root + t.keepers root := fun root => by
    rw [Tenant.keepers, Tenant.keepers, h.leases, h.values, List.count_append, Nat.add_assoc]
  have hnew : ∀ root ∈ new, root = t.own ⟨t.roots.next⟩ := by
    rcases h.new with rfl | rfl <;> simp
  have hfresh : ∀ root ∈ t.leased, root ∉ new := fun root hroot hmem =>
    ht.next_not_mem (hnew root hmem ▸ ht.leased root hroot)
  have hunowned : ∀ root ∈ new, t.keepers root = 0 := by
    intro root hroot
    refine Nat.eq_zero_of_not_pos fun hpos => ?_
    exact hfresh root (ht.owned root (owned_of_keepers hpos)) hroot
  -- an owner that is gone is not that of the new root
  have hdropped : ∀ root, t'.Dropped root → t.Dropped root := by
    rintro root ⟨hleased, hzero⟩
    rw [hkeepers] at hzero
    rw [h.leased] at hleased
    rcases List.mem_append.1 hleased with hmem | hmem
    · have := List.count_pos_iff.2 hmem
      omega
    · exact ⟨hmem, by omega⟩
  refine ⟨?_, fun id hid => ?_, ?_, fun root hroot => ?_, fun root hroot => ?_, fun root hroot => ?_,
    fun root => ?_, fun id hid => ?_, fun id hid hdrop => ?_⟩
  · rw [h.ids]
    refine List.pairwise_append.2 ⟨ht.sorted, List.pairwise_singleton _ _, fun id hid id' hid' => ?_⟩
    rw [List.mem_singleton.1 hid']
    exact ht.serial_lt (ht.registered id hid)
  · rw [hown, h.issued]
    rw [h.ids] at hid
    rcases List.mem_append.1 hid with hid | hid
    · exact List.mem_cons_of_mem _ (ht.registered id hid)
    · rw [List.mem_singleton.1 hid]
      exact List.mem_cons_self
  · rw [h.issued]
    exact List.nodup_cons.2 ⟨ht.next_not_mem, ht.issued⟩
  · rw [h.roots]
    rw [h.issued] at hroot
    rcases List.mem_cons.1 hroot with rfl | hroot
    · exact Or.inr ⟨rfl, Nat.lt_succ_self _⟩
    · exact (ht.bounded root hroot).imp_right (And.imp_right Nat.lt_succ_of_lt)
  · rw [h.issued]
    rw [h.leased] at hroot
    rcases List.mem_append.1 hroot with hroot | hroot
    · rw [hnew root hroot]
      exact List.mem_cons_self
    · exact List.mem_cons_of_mem _ (ht.leased root hroot)
  · rw [h.leased]
    rw [Owned, h.leases, h.values, List.mem_append, or_assoc] at hroot
    exact List.mem_append.2 (hroot.imp_right (ht.owned root))
  · rw [hkeepers]
    rcases Nat.eq_zero_or_pos (new.count root) with hzero | hpos
    · rw [hzero, Nat.zero_add]
      exact ht.single root
    · rw [hunowned root (List.count_pos_iff.1 hpos)]
      rcases h.new with rfl | rfl
      · exact Nat.zero_le _
      · rw [List.count_singleton]
        split <;> omega
  · rw [hreleased] at hid
    obtain ⟨hleased, hzero⟩ := ht.released id hid
    rw [Dropped, hown, h.leased, hkeepers, hzero, List.count_eq_zero.2 (hfresh _ hleased)]
    exact ⟨List.mem_append_right _ hleased, rfl⟩
  · rw [hown] at hdrop
    rw [hreleased]
    rw [h.ids] at hid
    rcases List.mem_append.1 hid with hid | hid
    · exact ht.noted id hid (hdropped _ hdrop)
    · rw [List.mem_singleton.1 hid] at hdrop
      exact absurd (ht.leased _ (hdropped _ hdrop).1) ht.next_not_mem

/-- **The roots and their owners remain in order.** -/
theorem Effect.orderly (h : Effect t t') (ht : t.Orderly) : t'.Orderly := by
  cases h with
  | @loseOwners gone h =>
    have hroots := h.roots
    refine ht.lose (by rw [hroots]; rfl) (by rw [hroots]; rfl) ?_ h.keepers h.owned h.issued h.leased
      (fun id hid => ?_) fun id _ hid => ?_
    · rw [ids, hroots]
      exact List.Sublist.refl _
    · rw [hroots] at hid
      exact (List.mem_append.1 hid).imp_right RootRegistry.mem_own.1
    · rw [hroots]
      exact List.mem_append.2 (hid.imp_right RootRegistry.mem_own.2)
  | @purgeRoots f gone h =>
    have hids := h.ids
    have hpurged : t.store.heap.purged.roots =
        { t.roots.without t.roots.released with released := [] } := t.roots.purge_eq
    have hreleased : t'.roots.released = [] := by rw [h.roots]
    refine ht.lose h.registry (by rw [h.roots, hpurged]; rfl) ?_ h.keepers h.owned
      h.issued h.leased (fun id hid => ?_) fun id hid hgone => ?_
    · rw [hids]
      exact List.filter_sublist
    · rw [hreleased] at hid
      cases hid
    · rw [hids] at hid
      have hkept := of_decide_eq_true (List.mem_filter.1 hid).2
      exact absurd hgone (not_or.2 hkept)
  | add h => exact h.orderly ht
  | set id p h =>
    subst h
    refine ht.lose rfl rfl ?_ (fun root => show _ + [].count root = _ from rfl) (fun _ h => h) rfl rfl
      (fun _ => Or.inl) fun _ _ h => h.resolve_right List.not_mem_nil
    rw [ids_set]
  | erase id h =>
    subst h
    refine ht.lose rfl rfl ?_ (fun root => show _ + [].count root = _ from rfl) (fun _ h => h) rfl rfl
      (fun _ => Or.inl) fun _ _ h => h.resolve_right List.not_mem_nil
    rw [ids_erase]
    exact List.filter_sublist

theorem Effect.registry (h : Effect t t') : t'.roots.registry = t.roots.registry := by
  cases h with
  | loseOwners h => rw [h.roots]; rfl
  | purgeRoots h => exact h.registry
  | add h => rw [h.roots]; rfl
  | set id p h => subst h; rfl
  | erase id h => subst h; rfl

/-- The handles of a run are those of one registry. -/
theorem own_of_steps (h : Relation.ReflTransGen (Step r) t t') (id : RootId) : t'.own id = t.own id := by
  induction h with
  | refl => rfl
  | tail _ hstep ih => rw [← ih, own, hstep.effect.registry, own]

/-- Handles are given out, and roots registered for an owner, by registering the next root only. -/
theorem Effect.handles (h : Effect t t') : (∀ root ∈ t.issued, root ∈ t'.issued) ∧
    (∀ root ∈ t'.leased, root ∈ t.leased ∨ root = t.own ⟨t.roots.next⟩) ∧
      ∀ id ∈ t'.ids, id ∈ t.ids ∨ id = ⟨t.roots.next⟩ := by
  cases h with
  | loseOwners h =>
    rw [h.issued, h.leased, ids, h.roots]
    exact ⟨fun _ hroot => hroot, fun _ => Or.inl, fun _ => Or.inl⟩
  | purgeRoots h =>
    rw [h.issued, h.leased, h.ids]
    exact ⟨fun _ hroot => hroot, fun _ => Or.inl, fun _ hid => Or.inl (List.mem_of_mem_filter hid)⟩
  | @add p new h =>
    rw [h.issued, h.leased, h.ids]
    refine ⟨fun _ => List.mem_cons_of_mem _, fun root hroot => ?_, fun id hid => ?_⟩
    · rcases List.mem_append.1 hroot with hnew | hold
      · rcases h.new with rfl | rfl
        · cases hnew
        · exact Or.inr (List.mem_singleton.1 hnew)
      · exact Or.inl hold
    · exact (List.mem_append.1 hid).imp_right List.mem_singleton.1
  | set id p h =>
    subst h
    rw [ids_set]
    exact ⟨fun _ hroot => hroot, fun _ => Or.inl, fun _ => Or.inl⟩
  | erase id h =>
    subst h
    rw [ids_erase]
    exact ⟨fun _ hroot => hroot, fun _ => Or.inl, fun _ hid => Or.inl (List.mem_of_mem_filter hid)⟩

theorem orderly_of_steps (h : Relation.ReflTransGen (Step r) t t') (ht : t.Orderly) : t'.Orderly := by
  induction h with
  | refl => exact ht
  | tail _ hstep ih => exact hstep.effect.orderly ih

/-- A root that was given out over a run is neither registered again nor given an owner. -/
theorem handles_of_steps (h : Relation.ReflTransGen (Step r) t t') (ht : t.Orderly) :
    (∀ root ∈ t.issued, root ∈ t'.issued) ∧ (∀ root ∈ t.issued, root ∈ t'.leased → root ∈ t.leased) ∧
      ∀ id ∈ t'.ids, t.own id ∈ t.issued → id ∈ t.ids := by
  induction h with
  | refl => exact ⟨fun _ => id, fun _ _ => id, fun _ hid _ => hid⟩
  | @tail u u' hrun hstep ih =>
    obtain ⟨hissued, hleased, hids⟩ := ih
    obtain ⟨hissued', hleased', hids'⟩ := hstep.effect.handles
    have hnew : ∀ root ∈ t.issued, root ≠ u.own ⟨u.roots.next⟩ := fun root hroot heq =>
      (orderly_of_steps hrun ht).next_not_mem (heq ▸ hissued root hroot)
    refine ⟨fun root hroot => hissued' root (hissued root hroot), fun root hroot hmem => ?_,
      fun id hid hroot => ?_⟩
    · exact hleased root hroot ((hleased' root hmem).resolve_right (hnew root hroot))
    · refine hids id ((hids' id hid).resolve_right fun heq => hnew _ hroot ?_) hroot
      rw [← own_of_steps hrun, heq]

/-- The roots of a heap that is given up are of no account for the next one. -/
theorem Renewal.orderly (h : Renewal t t') (ht : t.Orderly) : t'.Orderly := by
  subst h
  obtain ⟨⟨gone, hgone⟩, hgives⟩ := Store.exists_losesOwners_dropHeap t.store
  have hroots : roots { t with store := t.store.renew, allocated := 0 } =
      .empty (t.roots.registry + 1) := rfl
  have hnone : ids { t with store := t.store.renew, allocated := 0 } = [] := rfl
  refine ⟨?_, fun id hid => ?_, ht.issued, fun root hroot => ?_, ht.leased, fun root hroot => ?_,
    fun root => ?_, fun id hid => ?_, fun id hid => ?_⟩
  · rw [hnone]
    exact .nil
  · rw [hnone] at hid
    cases hid
  · refine Or.inl ?_
    rw [hroots]
    rcases ht.bounded root hroot with hlt | ⟨heq, -⟩
    · exact Nat.lt_succ_of_lt hlt
    · exact Nat.lt_succ_of_le heq.le
  · exact ht.owned root (hroot.imp_right (hgives.leases root))
  · have hless : t.store.dropHeap.values.owners root + gone.count root = _ := hgone.owners root
    have hone := ht.single root
    rw [keepers] at hone
    show t.leases.count root + t.store.dropHeap.values.owners root ≤ 1
    omega
  · rw [hroots] at hid
    cases hid
  · rw [hnone] at hid
    cases hid

/-! ## Whole histories -/

/-- What a client does that leaves the flags of cells alone. -/
def Moves (t t' : Tenant) : Prop := Step {} t t' ∨ Renewal t t'

/-- All that a client may have done in between. -/
def History : Tenant → Tenant → Prop := Relation.ReflTransGen fun t t' => Moves t t' ∨ Flagging t t'

theorem History.of_moves (h : Relation.ReflTransGen Moves t t') : History t t' :=
  Relation.ReflTransGen.mono (fun _ _ => Or.inl) _ _ h

theorem Fresh.balanced (ht : t.Fresh) : t.Balanced := by
  obtain ⟨settings, registry, heap, hmake, rfl⟩ := ht
  exact Holdings.Fresh.balanced ⟨settings, registry, heap, hmake, rfl⟩

theorem Fresh.clean (ht : t.Fresh) : t.store.heap.Clean := by
  obtain ⟨settings, registry, heap, hmake, rfl⟩ := ht
  obtain rfl := Heap.eq_make_of_make? hmake
  exact Heap.clean_make _ _

theorem Fresh.orderly (ht : t.Fresh) : t.Orderly := by
  obtain ⟨settings, registry, heap, hmake, rfl⟩ := ht
  obtain rfl := Heap.eq_make_of_make? hmake
  refine ⟨.nil, nofun, .nil, nofun, nofun, fun root hroot => ?_, fun root => Nat.zero_le _, nofun, nofun⟩
  rcases hroot with hroot | ⟨i, entry, name, hi, -⟩
  · cases hroot
  · cases hi

/-- **Over a whole history** the counts are right, and the roots and their owners are in order. -/
theorem History.orderly (h : History t t') (hb : t.Balanced) (ht : t.Orderly) :
    t'.Balanced ∧ t'.Orderly := by
  induction h with
  | refl => exact ⟨hb, ht⟩
  | @tail u u' hrun hstep ih =>
    obtain ⟨hb, ht⟩ := ih
    rcases hstep with (hstep | hstep) | hstep
    · exact ⟨hstep.balanced hb, hstep.effect.orderly ht⟩
    · exact ⟨hstep.balanced hb, hstep.orderly ht⟩
    · exact ⟨hstep.balanced hb, hstep.effect.orderly ht⟩

theorem clean_of_moves (h : Relation.ReflTransGen Moves t t') (ht : t.store.heap.Clean) :
    t'.store.heap.Clean := by
  induction h with
  | refl => exact ht
  | tail _ hstep ih =>
    rcases hstep with hstep | rfl
    · exact hstep.clean ih
    · exact Heap.clean_make _ _

end Tenant

end Tenure
