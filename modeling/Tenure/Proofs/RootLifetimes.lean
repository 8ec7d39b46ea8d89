/-
  Tenure — how roots come to an end.

  A root stays registered until it is taken away or, once its owner is gone, until a collection starts
  or ends well.  Whatever else a client does, other roots stay, and each with its cell.

  * `Tenant.Unregisters`: the ways in which a root may cease to be registered.
  * `Tenant.PreservesRoots`: what an operation does to the registered roots; `Effect.preservesRoots`:
    every operation does this.
  * `exists_unregisters`: over a whole run, a root that is missing has ceased in one of these ways.
  * `Store.Reclaims`: a collection gives up a young cell.
  * `roots_honoured`: all of it, whatever a client has done since it made its first heap.
-/
import Tenure.Proofs.RootOwners

namespace Tenure

/-! ## Looking up roots -/

namespace RootRegistry

variable {roots : RootRegistry} {id id' : RootId} {p q : Address}

theorem get?_insert_of_get? (h : roots.get? id = some p) : (roots.insert q).get? id = some p := by
  rw [get?] at h ⊢
  simp [insert, List.lookup_append, h]

theorem get?_set (roots : RootRegistry) (id : RootId) (q : Address) (id' : RootId) :
    (roots.set id q).get? id' = (roots.get? id').map fun p => if id' = id then q else p := by
  simp only [get?, set]
  induction roots.entries with
  | nil => rfl
  | cons e rest ih =>
    obtain ⟨key, p⟩ := e
    by_cases hkey : key = id <;> by_cases hid : id' = key <;>
      simp_all [List.lookup_cons, beq_eq_false_iff_ne.2]

theorem get?_erase (h : id' ≠ id) : (roots.erase id).get? id' = roots.get? id' := by
  have hwithout : roots.erase id = roots.without [id] := by
    have hcons := without_cons roots id []
    have hnil : (roots.erase id).without [] = roots.erase id := without_nil _
    rw [hcons, hnil]
  rw [hwithout, get?_without, if_neg fun hmem => h (List.mem_singleton.1 hmem)]

end RootRegistry

namespace Tenant

variable {r : Reserve} {t₀ t t' : Tenant} {gone : List RootLease} {root : RootLease}

theorem exists_get? {id : RootId} (h : id ∈ t.ids) : ∃ p, t.roots.get? id = some p := by
  rw [ids] at h
  rw [RootRegistry.get?]
  generalize t.roots.entries = entries at h ⊢
  induction entries with
  | nil => cases h
  | cons e rest ih =>
    by_cases hid : id = e.1
    · exact ⟨e.2, by rw [List.lookup_cons, beq_iff_eq.2 hid]⟩
    · obtain ⟨p, hp⟩ := ih ((List.mem_cons.1 h).resolve_left hid)
      exact ⟨p, by rw [List.lookup_cons, beq_eq_false_iff_ne.2 hid]; exact hp⟩

/-! ## One operation -/

/-- The ways in which a root may cease to be registered: it is taken away, or its owner is gone and a
    collection starts after that, or its owner is gone when a collection has ended well. -/
def Unregisters (t : Tenant) (id : RootId) (t' : Tenant) : Prop :=
  t' = { t with store := t.store.mapHeap (·.mapRoots (·.erase id)) } ∨
    (t.Dropped (t.own id) ∧ t.attempts < t'.attempts) ∨
      (t'.Dropped (t'.own id) ∧ t.collections < t'.collections)

/-- What an operation does to the registered roots. -/
structure PreservesRoots (t t' : Tenant) : Prop where
  stays : ∀ id ∈ t.ids, id ∈ t'.ids ∨ t.Unregisters id t'
  /-- The roots that are left are in the order in which they were, and a new one is the last. -/
  order : t'.ids.Sublist (t.ids ++ [⟨t.roots.next⟩])
  /-- A collection that succeeds leaves no root whose owner is gone by then. -/
  finished : t.collections < t'.collections → ∀ id ∈ t'.ids, ¬ t'.Dropped (t'.own id)
  /-- Any collection leaves no root whose owner was gone before. -/
  begun : t.attempts < t'.attempts → ∀ id ∈ t'.ids, ¬ t.Dropped (t.own id)
  /-- A root is pointed elsewhere by the client, or by a collection that moves cells. -/
  pointer : ∃ f : Address → Address, (t'.collections = t.collections → ∀ p, f p = p) ∧
    ∀ id ∈ t.ids, id ∈ t'.ids → t'.roots.get? id = (t.roots.get? id).map f ∨
      ∃ p, t' = { t with store := t.store.mapHeap (·.mapRoots (·.set id p)) }

theorem map_same {f : Address → Address} (hf : ∀ p, f p = p) (a : Option Address) : a.map f = a := by
  cases a with
  | none => rfl
  | some p => exact congrArg some (hf p)

/-- The roots stay as they are. -/
theorem LosesOwners.preservesRoots (h : t.LosesOwners gone t') : t.PreservesRoots t' := by
  have hids : t'.ids = t.ids := by rw [ids, h.roots]; rfl
  have hcounters := h.counters
  refine ⟨fun id hid => Or.inl (hids ▸ hid), ?_, fun hmore => ?_, fun hmore => ?_,
    fun p => p, fun _ _ => rfl, fun id _ _ => Or.inl ?_⟩
  · rw [hids]
    exact List.sublist_append_left _ _
  · simp [collections, hcounters] at hmore
  · simp [attempts, collections, hcounters] at hmore
  · rw [h.roots, map_same fun _ => rfl]
    rfl

theorem Adds.preservesRoots {p : Address} {new : List RootLease} (h : t.Adds p new t') :
    t.PreservesRoots t' := by
  have hcounters := h.counters
  refine ⟨fun id hid => Or.inl ?_, ?_, fun hmore => ?_, fun hmore => ?_,
    fun p => p, fun _ _ => rfl, fun id hid _ => Or.inl ?_⟩
  · rw [h.ids]
    exact List.mem_append_left _ hid
  · rw [h.ids]
  · simp [collections, hcounters] at hmore
  · simp [attempts, collections, hcounters] at hmore
  · obtain ⟨q, hq⟩ := exists_get? hid
    rw [h.roots, hq]
    exact RootRegistry.get?_insert_of_get? hq

/-- What a collection does to the registered roots. -/
theorem PurgesRoots.preservesRoots {f : Address → Address} (h : t.PurgesRoots f gone t') (ht : t.Orderly)
    (ht' : t'.Orderly) : t.PreservesRoots t' := by
  have hids := h.ids
  have hpurged : t.store.heap.purged.roots =
      { t.roots.without t.roots.released with released := [] } := t.roots.purge_eq
  have hown : ∀ id, t'.own id = t.own id := fun id => by rw [own, h.registry, own]
  have hkept : ∀ id ∈ t'.ids, id ∈ t.ids ∧ id ∉ t.roots.released ∧ t.own id ∉ gone := by
    intro id hid
    rw [hids] at hid
    obtain ⟨hid, hkept⟩ := List.mem_filter.1 hid
    exact ⟨hid, of_decide_eq_true hkept⟩
  have hbegun : ∀ id ∈ t'.ids, ¬ t.Dropped (t.own id) := fun id hid hdropped =>
    (hkept id hid).2.1 (ht.noted id (hkept id hid).1 hdropped)
  have hmore : t.attempts < t'.attempts := by
    rcases h.counters with ⟨report, hc⟩ | ⟨hc, -, -⟩
    · simp only [attempts, collections, hc, Counters.recorded]
      omega
    · simp only [attempts, collections, hc, Counters.abandoned]
      omega
  refine ⟨fun id hid => ?_, ?_, fun _ id hid hdropped => ?_, fun _ => hbegun, f, fun hsame => ?_,
    fun id _ hid' => Or.inl ?_⟩
  · by_cases hreleased : id ∈ t.roots.released
    · exact Or.inr (Or.inr (Or.inl ⟨ht.released id hreleased, hmore⟩))
    by_cases hgone : t.own id ∈ gone
    · -- only a collection that succeeds gives up cells, and owners with them
      rcases h.counters with ⟨report, hc⟩ | ⟨-, -, hnil⟩
      · refine Or.inr (Or.inr (Or.inr ⟨?_, ?_⟩))
        · have hcount := h.keepers (t.own id)
          have hone := ht.single (t.own id)
          have hpos := List.count_pos_iff.2 hgone
          rw [Dropped, hown, h.leased]
          exact ⟨ht.owned _ (owned_of_keepers (by omega)), by omega⟩
        · simp only [collections, hc, Counters.recorded]
          omega
      · rw [hnil] at hgone
        cases hgone
    · rw [hids]
      exact Or.inl (List.mem_filter.2 ⟨hid, decide_eq_true ⟨hreleased, hgone⟩⟩)
  · rw [hids]
    exact List.filter_sublist.trans (List.sublist_append_left _ _)
  · have hreleased : t'.roots.released = [] := by rw [h.roots]
    have hnoted := ht'.noted id hid hdropped
    rw [hreleased] at hnoted
    cases hnoted
  · rcases h.counters with ⟨report, hc⟩ | ⟨-, hf, -⟩
    · simp [collections, hc, Counters.recorded] at hsame
    · exact hf
  · obtain ⟨-, hreleased, hgone⟩ := hkept id hid'
    have hgone' : id ∉ t.roots.own gone := fun hmem => hgone (RootRegistry.mem_own.1 hmem)
    rw [h.roots]
    show ((t.store.heap.purged.roots.mapAddresses f).without (t.roots.own gone)).get? id = _
    rw [RootRegistry.get?_without, if_neg hgone', RootRegistry.get?_mapAddresses, hpurged]
    show ((t.roots.without t.roots.released).get? id).map f = _
    rw [RootRegistry.get?_without, if_neg hreleased]

/-- **What any operation does to the registered roots.** -/
theorem Effect.preservesRoots (h : Effect t t') (ht : t.Orderly) : t.PreservesRoots t' := by
  have ht' := h.orderly ht
  cases h with
  | loseOwners h => exact h.preservesRoots
  | purgeRoots h => exact h.preservesRoots ht ht'
  | add h => exact h.preservesRoots
  | set id p h =>
    subst h
    have hids := ids_set (t := t) id p
    refine ⟨fun id' hid => Or.inl (by rwa [hids]), ?_, fun hmore => absurd hmore (Nat.lt_irrefl _),
      fun hmore => absurd hmore (Nat.lt_irrefl _), fun p => p, fun _ _ => rfl, fun id' _ _ => ?_⟩
    · rw [hids]
      exact List.sublist_append_left _ _
    · by_cases hid : id' = id
      · subst hid
        exact Or.inr ⟨p, rfl⟩
      · refine Or.inl ((RootRegistry.get?_set t.roots id p id').trans ?_)
        simp [hid]
  | erase id h =>
    subst h
    have hids := ids_erase (t := t) id
    refine ⟨fun id' hid => ?_, ?_, fun hmore => absurd hmore (Nat.lt_irrefl _),
      fun hmore => absurd hmore (Nat.lt_irrefl _), fun p => p, fun _ _ => rfl, fun id' _ hid' =>
        Or.inl ?_⟩
    · by_cases hne : id' = id
      · subst hne
        exact Or.inr (Or.inl rfl)
      · rw [hids]
        exact Or.inl (List.mem_filter.2 ⟨hid, bne_iff_ne.2 hne⟩)
    · rw [hids]
      exact List.filter_sublist.trans (List.sublist_append_left _ _)
    · rw [hids] at hid'
      have hne : id' ≠ id := bne_iff_ne.1 (List.mem_filter.1 hid').2
      rw [map_same fun _ => rfl]
      exact RootRegistry.get?_erase hne

/-! ## Runs -/

/-- **A root that is missing** at the end of a run has ceased to be registered in one of the ways in
    which a root may. -/
theorem exists_unregisters (h : Relation.ReflTransGen (Step r) t t') (ht : t.Orderly) {id : RootId}
    (hid : id ∈ t.ids) (hout : id ∉ t'.ids) :
    ∃ u u', Relation.ReflTransGen (Step r) t u ∧ Step r u u' ∧ Relation.ReflTransGen (Step r) u' t' ∧
      id ∈ u.ids ∧ u.Unregisters id u' := by
  induction h with
  | refl => exact absurd hid hout
  | @tail u u' hrun hstep ih =>
    by_cases hmem : id ∈ u.ids
    · have hstays := (hstep.effect.preservesRoots (orderly_of_steps hrun ht)).stays id hmem
      exact ⟨u, u', hrun, hstep, .refl, hmem, hstays.resolve_left hout⟩
    · obtain ⟨w, w', hw, hstep', hw', hmem', hunregisters⟩ := ih hmem
      exact ⟨w, w', hw, hstep', hw'.tail hstep, hmem', hunregisters⟩

end Tenant

/-! ## Cells whose roots are gone -/

namespace Store

variable {s s' : Store} {report : CollectionSummary} {p : Address}

/-- A collection gives up the young cell at an address: it is among those that are reported as
    reclaimed, and not among those that are found again. -/
structure Reclaims (s : Store) (report : CollectionSummary) (s' : Store) (p : Address) : Prop where
  garbage : p ∈ s.heap.purged.youngGarbage
  reclaimed : report.reclaimed = s.heap.purged.youngGarbage.ncard
  mapsOnto : ∃ f, Heap.MapsOnto {q | s.heap.purged.Keeps report.oldCollected q} s.heap.purged f s'.heap
  gone : ¬ s.heap.purged.Keeps report.oldCollected p

theorem reclaims_of_not_rooted (hh : s.heap.WellFormed) (hclean : s.heap.Clean)
    (hc : s.collect = .ok (.ok report) s') (hp : s.heap.contains p) (hyoung : ¬ p.isOld)
    (hout : ¬ s.heap.purged.Rooted p) : s.Reclaims report s' p := by
  obtain ⟨f, gone, hf, -⟩ := exists_mapsOnto hc
  obtain ⟨-, -, -, hreclaimed, -⟩ := report_exact hh hclean hc
  have hpurged : s.heap.purged.Clean := hclean
  refine ⟨⟨hyoung, hp, hout⟩, hreclaimed, ⟨f, hf⟩, fun hkeeps => ?_⟩
  rcases hpurged.keeps_iff.1 hkeeps with hrooted | ⟨-, hold, -⟩
  · exact hout hrooted
  · exact hyoung hold

end Store

namespace Tenant

variable {t₀ t : Tenant}

/-- **Cells whose roots are gone** when a collection ends are still there, and go with the next
    collection that succeeds if they are young and have not been made reachable. -/
theorem linger_of_collect (hb : t.Balanced) (hclean : t.store.heap.Clean) {report : CollectionSummary}
    {s' : Store} (hc : t.store.collect = .ok (.ok report) s') :
    ∃ f, (∀ id ∈ ids { t with store := s' }, s'.heap.roots.get? id = (t.roots.get? id).map f) ∧
      ∀ p, t.store.heap.purged.Rooted p →
        (∃ c d, t.store.heap.get? p = some c ∧ s'.heap.get? (f p) = some d ∧ c.SameBut f d) ∧
        ∀ u, Relation.ReflTransGen (Step {}) { t with store := s' } u →
          u.collections = collections { t with store := s' } → ¬ (f p).isOld →
          ¬ u.store.heap.purged.Rooted (f p) → ∀ report' s'', u.store.collect = .ok (.ok report') s'' →
            u.store.Reclaims report' s'' (f p) := by
  obtain ⟨f, gone, hf, hroots, -⟩ := Store.exists_transfers hc
  have hstep : Step {} t { t with store := s' } := .collect hc
  have hpurged : t.store.heap.purged.roots =
      { t.roots.without t.roots.released with released := [] } := t.roots.purge_eq
  refine ⟨f, fun id hid => ?_, fun p hp => ?_⟩
  · obtain ⟨q, hq⟩ := exists_get? hid
    have hq' : s'.heap.roots.get? id = some q := hq
    have hget := hq'
    rw [hroots, RootRegistry.get?_without, RootRegistry.get?_mapAddresses, hpurged] at hget
    split at hget
    · cases hget
    · change ((t.roots.without t.roots.released).get? id).map f = _ at hget
      rw [RootRegistry.get?_without] at hget
      split at hget
      · cases hget
      · rw [hq', hget]
  · obtain ⟨c, d, hcell, hcell', hsame⟩ := hf.mapsOnto.cell p (Heap.Clean.keeps hclean hp)
    refine ⟨⟨c, d, hcell, hcell', hsame⟩, fun u hrun hcollections hyoung hout report' s'' hc' => ?_⟩
    have hu : u.Balanced := balanced_of_steps hrun (hstep.balanced hb)
    have hclean' : u.store.heap.Clean := clean_of_steps hrun (hstep.clean hclean)
    have hcontains : u.store.heap.contains (f p) :=
      ((unmoved_of_steps hrun).2 hcollections).contains (Heap.contains_iff.2 ⟨d, hcell'⟩)
    exact Store.reclaims_of_not_rooted hu.wellFormed hclean' hc' hcontains hyoung hout

/-- An owner that goes is noted at most, and one of a root of another heap is not even noted. -/
theorem release_spares (roots : RootRegistry) (root : RootLease) :
    (roots.release root).entries = roots.entries ∧
      (root.registry ≠ roots.registry → roots.release root = roots) := by
  unfold RootRegistry.release
  split
  · rename_i hsame
    exact ⟨rfl, fun hne => absurd hsame hne⟩
  · exact ⟨rfl, fun _ => rfl⟩

/-- **Roots are honoured**, whatever a client has done since it made its first heap. -/
theorem roots_honoured (h₀ : t₀.Fresh) (hrun : Relation.ReflTransGen Moves t₀ t) :
    -- no handle was given out twice, and roots are in the order of their registration
    (t.issued.Nodup ∧ (∀ id ∈ t.ids, t.own id ∈ t.issued) ∧
        t.ids.Pairwise fun id id' => id.serial < id'.serial) ∧
      -- a root stays until it is taken away or its owner is gone and a collection is run
      (∀ t', Step {} t t' → t.PreservesRoots t') ∧
      (∀ t' id, Relation.ReflTransGen (Step {}) t t' → id ∈ t.ids → id ∉ t'.ids →
        ∃ u u', Relation.ReflTransGen (Step {}) t u ∧ Step {} u u' ∧
          Relation.ReflTransGen (Step {}) u' t' ∧ id ∈ u.ids ∧ u.Unregisters id u') ∧
      (∀ root, (t.roots.release root).entries = t.roots.entries ∧
        (root.registry ≠ t.roots.registry → t.roots.release root = t.roots)) ∧
      -- a collection leaves no root whose owner is gone
      (∀ report s', t.store.collect = .ok (.ok report) s' →
        (∀ id ∈ ids { t with store := s' }, ¬ Dropped { t with store := s' } (t.own id)) ∧
        ∃ f, (∀ id ∈ ids { t with store := s' },
            s'.heap.roots.get? id = (t.roots.get? id).map f) ∧
          -- and the cells of roots that went in the meantime go with the next one
          ∀ p, t.store.heap.purged.Rooted p →
            (∃ c d, t.store.heap.get? p = some c ∧ s'.heap.get? (f p) = some d ∧ c.SameBut f d) ∧
            ∀ u, Relation.ReflTransGen (Step {}) { t with store := s' } u →
              u.collections = collections { t with store := s' } → ¬ (f p).isOld →
              ¬ u.store.heap.purged.Rooted (f p) →
              ∀ report' s'', u.store.collect = .ok (.ok report') s'' →
                u.store.Reclaims report' s'' (f p)) ∧
      ∀ error s', t.store.collect = .ok (.error error) s' →
        ∀ id ∈ ids { t with store := s' }, ¬ t.Dropped (t.own id) := by
  obtain ⟨hb, ht⟩ := (History.of_moves hrun).orderly h₀.balanced h₀.orderly
  have hclean : t.store.heap.Clean := clean_of_moves hrun h₀.clean
  have hpreserves : ∀ t', Step {} t t' → t.PreservesRoots t' := fun _ hstep =>
    hstep.effect.preservesRoots ht
  refine ⟨⟨ht.issued, ht.registered, ht.sorted⟩, hpreserves, fun t' id h => exists_unregisters h ht,
    release_spares t.roots, fun report s' hc => ⟨fun id hid => ?_, linger_of_collect hb hclean hc⟩,
    fun error s' hc id hid => ?_⟩
  · have hmore : t.collections < collections { t with store := s' } := by
      rw [collections, collections, Store.youngCollections_collect hc]
      exact Nat.lt_succ_self _
    have hown : own { t with store := s' } id = t.own id := by
      obtain ⟨f, gone, hpurges⟩ := exists_purgesRoots_of_collect hc
      rw [own, hpurges.registry, own]
    rw [← hown]
    exact (hpreserves _ (.collect hc)).finished hmore id hid
  · have hmore : t.attempts < attempts { t with store := s' } := by
      rw [attempts, attempts, collections, collections, Store.counters_collect hc]
      exact Nat.lt_succ_self _
    exact (hpreserves _ (.collect hc)).begun hmore id hid

/-- A client that has just begun. -/
def beginning : Tenant where
  store := { heap := .make .standard 0 }

/-- The same client when a cell that nothing leads to holds a procedure that owns a root. -/
def entrusted : Tenant where
  store :=
    { heap :=
        { settings := .standard
          active := #[.blank, { car := .value ⟨0⟩ }]
          roots := { entries := [(⟨0⟩, ⟨.young 0, 0⟩)], next := 1 } }
      values := { entries := #[⟨.owner "procedure" ⟨0, ⟨0⟩⟩, 1⟩] } }
  issued := [⟨0, ⟨0⟩⟩]
  leased := [⟨0, ⟨0⟩⟩]
  allocated := 2

theorem fresh_beginning : beginning.Fresh := ⟨.standard, 0, _, rfl, rfl⟩

theorem moves_entrusted : Relation.ReflTransGen Moves beginning entrusted := by
  have hblock : Step {} beginning
      { store :=
          { heap := { settings := .standard, active := #[.blank, .blank], roots := .empty 0 } }
        allocated := 2 } :=
    .allocate (show Store.allocate 2 _ = .ok (.ok ⟨.young 0, 0⟩) _ from rfl)
  have hvalue : Step {}
      { store :=
          { heap :=
              { settings := .standard, active := #[.blank, .blank]
                roots := { entries := [(⟨0⟩, ⟨.young 0, 0⟩)], next := 1 } } }
        leases := [⟨0, ⟨0⟩⟩], issued := [⟨0, ⟨0⟩⟩], leased := [⟨0, ⟨0⟩⟩], allocated := 2 }
      { store :=
          { heap :=
              { settings := .standard, active := #[.blank, .blank]
                roots := { entries := [(⟨0⟩, ⟨.young 0, 0⟩)], next := 1 } }
            values := { entries := #[⟨.owner "procedure" ⟨0, ⟨0⟩⟩, 1⟩] } }
        handles := [⟨0⟩], issued := [⟨0, ⟨0⟩⟩], leased := [⟨0, ⟨0⟩⟩], allocated := 2 } :=
    .entrust "procedure" (.refl _)
  have hcell : Step {} _ entrusted :=
    .put (t := { entrusted with
        store := { entrusted.store with
          heap := { entrusted.store.heap with active := #[.blank, .blank] } }
        handles := [⟨0⟩] })
      (p := ⟨.young 0, 1⟩) (c := .blank) (d := { car := .value ⟨0⟩ })
      (fun h => h) rfl nofun (.refl _) nofun
  have hmoves : ∀ {u u' : Tenant}, Step {} u u' → Moves u u' := Or.inl
  refine (((Relation.ReflTransGen.single (hmoves hblock)).tail
    (hmoves (.lease (p := ⟨.young 0, 0⟩) ?_))).tail (hmoves hvalue)).tail (hmoves hcell)
  exact Store.leaseRoot_eq_ok_iff.2 ⟨by decide, rfl, rfl⟩

theorem roots_honoured_entrusted : beginning.Fresh ∧ Relation.ReflTransGen Moves beginning entrusted ∧
    ∃ report s', entrusted.store.collect = .ok (.ok report) s' ∧ report.reclaimed = 1 ∧
      entrusted.Unregisters ⟨0⟩ { entrusted with store := s' } := by
  obtain ⟨report, s', hc, hcheck⟩ := Store.exists_collect entrusted.store
    (fun report s' => report.reclaimed = 1 ∧ s'.heap.roots.entries = []) (by cbv)
  obtain ⟨hreclaimed, hroots⟩ := of_decide_eq_true hcheck
  obtain ⟨-, hpreserves, -⟩ := roots_honoured fresh_beginning moves_entrusted
  refine ⟨fresh_beginning, moves_entrusted, report, s', hc, hreclaimed, ?_⟩
  refine ((hpreserves _ (.collect hc)).stays ⟨0⟩ (by decide)).resolve_left fun hid => ?_
  rw [ids, show roots { entrusted with store := s' } = s'.heap.roots from rfl, hroots] at hid
  cases hid

end Tenant

end Tenure
