/-
  Tenure — hanging a list onto a chain.

  While a spine cell is allocated a root of its own keeps the list, so that a collection may come in
  between.

  * `Tenant.rooting`: the client after it has registered a root.
  * `spineFor_cases`, `push_cases`, `release_cases`: what the parts come to.
  * `WritesSpine`: the spine cell is written.
  * `Tenant.Pushes`: what hanging a list onto a chain does to the cells and the roots;
    `exists_pushes`: every attempt does this, and it is made of operations of a client.
-/
import Tenure.Proofs.FilledLists

namespace Tenure

variable {chain : RetainedLists} {p q list : Address} {iteration : Nat} {s s' t u : Store}

/-! ## The parts -/

namespace RetainedLists

theorem spineFor_cases {a : Except RunError (Address × Address)}
    (h : (spineFor list).run s = .ok a s') :
    s.heap.roots.next + 1 < Word.limit ∧ ∃ a₁ t, Store.allocate 1
      (s.mapHeap (·.mapRoots (·.insert list))) = .ok a₁ t ∧
      s' = t.mapHeap (·.mapRoots (·.erase ⟨s.heap.roots.next⟩)) ∧
      ((∃ error, a₁ = .error error ∧ a = .error (.heap error)) ∨
        (∃ q, a₁ = .ok q ∧ t.heap.roots.get? ⟨s.heap.roots.next⟩ = none ∧
          a = .error (.corrupted .pendingListLost)) ∨
        ∃ q list', a₁ = .ok q ∧ t.heap.roots.get? ⟨s.heap.roots.next⟩ = some list' ∧
          a = .ok (q, list')) := by
  unfold spineFor at h
  obtain ⟨_, _, hroot, h⟩ := Attempt.lift_bind_eq_ok h
  obtain ⟨hlt, rfl, rfl⟩ := Store.addRoot_eq_ok_iff.1 hroot
  obtain ⟨a₁, t, ha, h⟩ := Attempt.lift_bind_eq_ok h
  refine ⟨hlt, a₁, t, ha, ?_⟩
  cases a₁ with
  | error error =>
    cases h
    exact ⟨rfl, Or.inl ⟨error, rfl, rfl⟩⟩
  | ok q =>
    change (Attempt.require (t.heap.roots.get? ⟨s.heap.roots.next⟩) .pendingListLost >>= fun list' =>
      pure (q, list')).run (t.mapHeap (·.mapRoots (·.erase ⟨s.heap.roots.next⟩))) = _ at h
    cases hkept : t.heap.roots.get? ⟨s.heap.roots.next⟩ with
    | none =>
      rw [hkept] at h
      cases h
      exact ⟨rfl, Or.inr (Or.inl ⟨q, rfl, rfl, rfl⟩)⟩
    | some list' =>
      rw [hkept] at h
      cases h
      exact ⟨rfl, Or.inr (Or.inr ⟨q, list', rfl, rfl, rfl⟩)⟩

/-- A spine cell is written. -/
def WritesSpine (s : Store) (q list : Address) (root : Option RootId) (s' : Store) : Prop :=
  ∃ t, s.write q .car (.ref list) = .ok () t ∧
    match root.bind t.heap.roots.get? with
    | some previous => t.write q .cdr (.ref previous) = .ok () s'
    | none => s' = t

theorem push_cases {a : Except RunError RetainedLists}
    (h : (chain.push list iteration).run s = .ok a s') :
    (∃ e, (spineFor list).run s = .ok (.error e) s' ∧ a = .error e) ∨
      ∃ q list' t u, (spineFor list).run s = .ok (.ok (q, list')) t ∧ WritesSpine t q list' chain.root u ∧
        match chain.root with
        | some id => s' = u.mapHeap (·.mapRoots (·.set id q)) ∧
            a = .ok ⟨some id, chain.iterations.push iteration⟩
        | none => u.addRoot q = .ok ⟨u.heap.roots.next⟩ s' ∧
            a = .ok ⟨some ⟨u.heap.roots.next⟩, chain.iterations.push iteration⟩ := by
  obtain ⟨root, iterations⟩ := chain
  unfold push at h
  rcases Attempt.bind_eq_ok_iff.1 h with ⟨⟨q, list'⟩, t, hspine, h⟩ | ⟨e, hspine, rfl⟩
  swap
  · exact Or.inl ⟨e, hspine, rfl⟩
  obtain ⟨_, t₁, hcar, h⟩ := Attempt.lift_bind_eq_ok h
  right
  cases root with
  | none =>
    replace h := (Attempt.run_get_bind _ t₁).symm.trans h
    obtain ⟨id, u, hadd, h⟩ := Attempt.lift_bind_eq_ok h
    cases h
    obtain rfl := (Store.addRoot_eq_ok_iff.1 hadd).2.1
    exact ⟨q, list', t, t₁, hspine, ⟨t₁, hcar, rfl⟩, hadd, rfl⟩
  | some id =>
    cases hprevious : t₁.heap.roots.get? id with
    | none =>
      have hbind : (some id).bind t₁.heap.roots.get? = none := hprevious
      replace h := (Attempt.run_get_bind _ t₁).symm.trans h
      simp only [hbind] at h
      cases h
      exact ⟨q, list', t, t₁, hspine, ⟨t₁, hcar, by rw [hbind]⟩, rfl, rfl⟩
    | some previous =>
      have hbind : (some id).bind t₁.heap.roots.get? = some previous := hprevious
      replace h := (Attempt.run_get_bind _ t₁).symm.trans h
      simp only [hbind] at h
      obtain ⟨_, u, hcdr, h⟩ := Attempt.lift_bind_eq_ok h
      cases h
      exact ⟨q, list', t, u, hspine, ⟨t₁, hcar, by rw [hbind]; exact hcdr⟩, rfl, rfl⟩

/-- The root of a chain is taken away with it. -/
theorem release_cases (chain : RetainedLists) (s : Store) :
    (chain.root = none ∧ chain.release s = s) ∨
      ∃ id, chain.root = some id ∧ chain.release s = s.mapHeap (·.mapRoots (·.erase id)) := by
  unfold release
  cases hroot : chain.root with
  | none => exact Or.inl ⟨rfl, rfl⟩
  | some id => exact Or.inr ⟨id, rfl, rfl⟩

end RetainedLists

namespace Tenant

variable {r : Reserve} {t t' t'' : Tenant} {f : Address → Address} {gone : List RootLease}
  {chain : RetainedLists} {list q : Address} {iteration : Nat}

open RetainedLists

/-- Writing a new spine cell. -/
theorem writesSpine_cases {root : Option RootId} {u : Store} (hq : t.store.heap.get? q = some .blank)
    (hout : q ∉ r.cells) (h : WritesSpine t.store q list root u) :
    Relation.ReflTransGen (Step r) t { t with store := u } ∧
      (∃ d, u.heap.get? q = some d ∧ d.isMarked = false ∧ d.car = .ref list ∧
        d.cdr.ref? = root.bind t.roots.get?) ∧
      (∀ p, p ≠ q → u.heap.get? p = t.store.heap.get? p) ∧ u.heap.roots = t.roots ∧
      u.heap.counters = t.store.heap.counters ∧ u.values = t.store.values := by
  obtain ⟨s₁, hcar, h⟩ := h
  obtain ⟨rfl, hstep⟩ := Step.write hout hq rfl rfl hcar
  have hroots : (t.store.heap.put q (Cell.blank.store .car (.ref list))).roots = t.roots :=
    Heap.roots_put _ _ _
  have hcounters := Heap.counters_put t.store.heap q (Cell.blank.store .car (.ref list))
  have hput := Heap.get?_put_self hq (Cell.blank.store .car (.ref list))
  have hnext : root.bind (t.store.heap.put q (Cell.blank.store .car (.ref list))).roots.get? =
      root.bind t.roots.get? := by rw [hroots]
  simp only [Store.heap_mapHeap] at h
  cases hprevious : root.bind t.roots.get? with
  | none =>
    rw [hnext, hprevious] at h
    obtain rfl := h
    exact ⟨.single hstep, ⟨_, hput, rfl, rfl, rfl⟩, fun p hp => Heap.get?_put_of_ne hp _, hroots,
      hcounters, rfl⟩
  | some previous =>
    rw [hnext, hprevious] at h
    obtain ⟨rfl, hstep'⟩ := Step.write (t := { t with
      store := t.store.mapHeap (·.put q (Cell.blank.store .car (.ref list))) }) hout hput rfl rfl h
    refine ⟨.tail (.single hstep) hstep', ⟨_, Heap.get?_put_self hput _, rfl, rfl, rfl⟩, fun p hp => ?_,
      (Heap.roots_put _ _ _).trans hroots, (Heap.counters_put _ _ _).trans hcounters, rfl⟩
    exact (Heap.get?_put_of_ne hp _).trans (Heap.get?_put_of_ne hp _)

/-! ## Roots whose owners are gone -/

/-- No root is missing but those whose owners are gone. -/
structure LosesOnlyDropped (t t' : Tenant) : Prop where
  sublist : t'.ids.Sublist t.ids
  dropped : ∀ id ∈ t.ids, id ∉ t'.ids → t'.Dropped (t.own id)

theorem Dropped.of_values {root : RootLease} (h : t.Dropped root)
    (hvalues : t'.store.values = t.store.values) (hleases : t'.leases = t.leases)
    (hleased : t'.leased = t.leased) : t'.Dropped root := by
  rwa [Dropped, keepers, hvalues, hleases, hleased]

theorem LosesOwners.losesOnlyDropped (h : t.LosesOwners gone t') : t.LosesOnlyDropped t' := by
  have hids : t'.ids = t.ids := by
    rw [ids, h.roots]
    rfl
  exact ⟨hids ▸ .refl _, fun id hid hout => absurd (hids ▸ hid) hout⟩

theorem PurgesRoots.losesOnlyDropped (h : t.PurgesRoots f gone t') (ht : t.Orderly) :
    t.LosesOnlyDropped t' := by
  refine ⟨h.ids ▸ List.filter_sublist, fun id hid hout => ?_⟩
  have hlost : id ∈ t.roots.released ∨ t.own id ∈ gone := by
    by_contra hnone
    obtain ⟨hreleased, hgone⟩ := not_or.1 hnone
    refine hout ?_
    rw [h.ids]
    exact List.mem_filter.2 ⟨hid, decide_eq_true ⟨hreleased, hgone⟩⟩
  have hkeepers := h.keepers (t.own id)
  rw [Dropped, h.leased]
  rcases hlost with hreleased | hgone
  · obtain ⟨hleased, hnone⟩ := ht.released id hreleased
    exact ⟨hleased, by omega⟩
  · have hone := ht.single (t.own id)
    have hpos := List.count_pos_iff.2 hgone
    exact ⟨ht.owned _ (owned_of_keepers (by omega)), by omega⟩

/-! ## Hanging a list onto a chain -/

/-- The client after it has registered a root. -/
def rooting (t : Tenant) (p : Address) : Tenant :=
  { t with
    store := t.store.mapHeap (·.mapRoots (·.insert p))
    issued := t.own ⟨t.roots.next⟩ :: t.issued }

/-- The client after it has asked for a list to be hung onto a chain. -/
def pushing (t : Tenant) (chain : RetainedLists) (a : Except RunError RetainedLists) (s' : Store) :
    Tenant :=
  { t.after 1 a s' with
    issued :=
      (match a with
        | .ok chain' => if chain.root.isNone then chain'.root.toList.map t.own else []
        | .error _ => []) ++ t.own ⟨t.roots.next⟩ :: t.issued }

theorem step_rooting (hnext : t.roots.next + 1 < Word.limit) (p : Address) : Step r t (t.rooting p) :=
  .addRoot (Store.addRoot_of_lt hnext p)

theorem mem_ids {id : RootId} {p : Address} (h : t.roots.get? id = some p) : id ∈ t.ids := by
  by_contra hout
  have hnone : t.roots.get? id = none := by
    rw [RootRegistry.get?, List.lookup_eq_none_iff]
    exact fun e he => bne_iff_ne.2 fun heq => hout (heq ▸ List.mem_map_of_mem he)
  rw [hnone] at h
  cases h

/-- A root that is added to those of a client is found. -/
theorem get?_add_self {roots : RootRegistry} (p : Address)
    (hnext : (⟨roots.next⟩ : RootId) ∉ roots.entries.map (·.1)) :
    (roots.insert p).get? ⟨roots.next⟩ = some p :=
  lookup_append_self fun _ he heq => hnext (heq ▸ List.mem_map_of_mem he)

/-- The root on the list is taken away again. -/
theorem LosesOnlyDropped.erase {u : Store}
    (h : (t.rooting list).LosesOnlyDropped { t.rooting list with store := u })
    (hids : (⟨t.roots.next⟩ : RootId) ∉ t.ids) {issued : List RootLease} {allocated : Nat} :
    t.LosesOnlyDropped { t with
      store := u.mapHeap (·.mapRoots (·.erase ⟨t.roots.next⟩)), issued, allocated } := by
  have hadded : (t.rooting list).ids = t.ids ++ [⟨t.roots.next⟩] := by
    simp [ids, roots, rooting, RootRegistry.insert, Heap.mapRoots]
  have herased : ids { t with
      store := u.mapHeap (·.mapRoots (·.erase ⟨t.roots.next⟩)), issued, allocated } =
        (ids { t.rooting list with store := u }).filter (· != ⟨t.roots.next⟩) :=
    ids_erase (t := { t.rooting list with store := u }) ⟨t.roots.next⟩
  refine ⟨?_, fun id hid hout => ?_⟩
  · have hsub := h.sublist.filter (· != (⟨t.roots.next⟩ : RootId))
    have hall : t.ids.filter (· != (⟨t.roots.next⟩ : RootId)) = t.ids :=
      List.filter_eq_self.2 fun id hid => bne_iff_ne.2 fun heq => hids (heq ▸ hid)
    rw [herased]
    simpa [hadded, List.filter_append, hall] using hsub
  · have hne : id ≠ ⟨t.roots.next⟩ := fun heq => hids (heq ▸ hid)
    refine h.dropped id (hadded ▸ List.mem_append_left _ hid) fun hmem => hout ?_
    rw [herased]
    exact List.mem_filter.2 ⟨hmem, bne_iff_ne.2 hne⟩

/-- A mark phase starts from a new root as well. -/
theorem addresses_rooting (hnext : (⟨t.roots.next⟩ : RootId) ∉ t.roots.released) (p : Address) :
    (t.rooting p).store.heap.purged.roots.addresses = t.store.heap.purged.roots.addresses ++ [p] := by
  have hpurged : t.store.heap.purged.roots =
      { t.roots.without t.roots.released with released := [] } := t.roots.purge_eq
  have hpurged' : (t.rooting p).store.heap.purged.roots =
      { (t.roots.insert p).without t.roots.released with released := [] } :=
    (t.roots.insert p).purge_eq
  rw [hpurged, hpurged']
  simp [RootRegistry.addresses, RootRegistry.without, RootRegistry.insert, hnext]

theorem finds_rooting (hnext : (⟨t.roots.next⟩ : RootId) ∉ t.roots.released) {p : Address}
    (hp : t.store.heap.purged.Finds (list :: t.store.heap.purged.roots.addresses) p) :
    (t.rooting list).store.heap.purged.Finds (t.rooting list).store.heap.purged.roots.addresses p := by
  have hfound : (t.rooting list).store.heap.purged.Finds
      (list :: t.store.heap.purged.roots.addresses) p :=
    Heap.Finds.congr (h := t.store.heap.purged) (fun _ => rfl) hp
  rw [addresses_rooting hnext]
  exact hfound.mono (by simp)

/-- The cells that are still there after an operation during which a root keeps a list. -/
def spared (t : Tenant) (list : Address) (t' : Tenant) : Set Address :=
  {p | t'.collections = t.collections ∨
    t.store.heap.purged.Finds (list :: t.store.heap.purged.roots.addresses) p}

/-- What allocating a spine cell for a list does to the cells and the roots. -/
structure AllocatesSpine (t : Tenant) (list : Address) (a : Except RunError (Address × Address))
    (f : Address → Address) (t' : Tenant) : Prop where
  rooted : t.roots.next + 1 < Word.limit
  requests : (t.rooting list).Requests t'
  cells : t.store.heap.Transports (t.spared list t') f t'.store.heap
  still : t'.collections = t.collections → f = id
  roots : ∀ id, t.own id ∉ t.leased → ∀ p, t.roots.get? id = some p → t'.roots.get? id = some (f p)
  losesOnlyDropped : t.LosesOnlyDropped t'
  /-- The list is found again, and the spine cell is new. -/
  spine : ∀ q list', a = .ok (q, list') → list' = f list ∧ t'.store.heap.get? q = some .blank ∧
    ∀ p ∈ t.spared list t', t.store.heap.contains p → f p ≠ q

theorem AllocatesSpine.steps {a : Except RunError (Address × Address)}
    (h : t.AllocatesSpine list a f t') :
    Relation.ReflTransGen (Step { values := Set.univ }) t t' :=
  h.requests.steps.head (step_rooting h.rooted list)

theorem exists_allocatesSpine {s' : Store} {a : Except RunError (Address × Address)} (ht : t.Orderly)
    (h : (spineFor list).run t.store = .ok a s') :
    ∃ f, t.AllocatesSpine list a f
      { t.after 1 a s' with issued := t.own ⟨t.roots.next⟩ :: t.issued } := by
  obtain ⟨hrooted, a₁, u, ha, rfl, hends⟩ := spineFor_cases h
  have hrooting : (t.rooting list).Orderly := (step_rooting (r := {}) hrooted list).effect.orderly ht
  have hallocate : Step { values := Set.univ } (t.rooting list)
      { t.rooting list with store := u, allocated := t.allocated + granted 1 a₁ } := .allocate ha
  obtain ⟨f, hf, hapart⟩ := Store.exists_transports_allocate ha
  -- the handle of the root on the list is new
  have hnext : t.own ⟨t.roots.next⟩ ∉ t.issued := ht.next_not_mem
  have hreleased : (⟨t.roots.next⟩ : RootId) ∉ t.roots.released := fun hmem =>
    hnext (ht.leased _ (ht.released _ hmem).1)
  have hids : (⟨t.roots.next⟩ : RootId) ∉ t.ids := fun hmem => hnext (ht.registered _ hmem)
  have htransports : (t.rooting list).Transports ⟨Set.univ, Set.univ, Set.univ⟩ f
      { t.rooting list with store := u } := .of_store hrooting hf
  have hkept : u.heap.roots.get? ⟨t.roots.next⟩ = some (f list) :=
    htransports.roots _ trivial (fun hmem => hnext (ht.leased _ hmem)) list (get?_add_self list hids)
  have herase : ∀ id ∈ t.ids, (u.heap.roots.erase ⟨t.roots.next⟩).get? id = u.heap.roots.get? id :=
    fun id hid => RootRegistry.get?_erase fun heq => hids (heq ▸ hid)
  have hafter : t.allocated + granted 1 a₁ = (t.after 1 a (u.mapHeap
      (·.mapRoots (·.erase ⟨t.roots.next⟩)))).allocated := by
    rcases hends with ⟨error, rfl, rfl⟩ | ⟨q, rfl, hlost, rfl⟩ | ⟨q, list', rfl, -, rfl⟩
    · rfl
    · cases hkept.symm.trans hlost
    · rfl
  have hsub : t.spared list { t with store := u } ⊆ (t.rooting list).store.lasting u := fun p hp =>
    hp.imp_right (finds_rooting hreleased)
  refine ⟨f, hrooted, ?_, hf.cells.mono hsub, hf.still, fun id hid p hp => ?_, ?_,
    fun q list' hq => ?_⟩
  · have herase := Step.eraseRoot (r := { values := Set.univ }) { t.rooting list with
        store := u, allocated := t.allocated + granted 1 a₁ } (Set.notMem_empty (⟨t.roots.next⟩ : RootId))
    rw [hafter] at hallocate herase
    exact ⟨_, hallocate, .single herase, rfl⟩
  · have hmem := mem_ids hp
    exact (herase id hmem).trans
      (htransports.roots id trivial hid p (RootRegistry.get?_insert_of_get? hp))
  · obtain ⟨v, hv⟩ := Store.exists_blockAnswer_allocate ha
    have honly : (t.rooting list).LosesOnlyDropped { t.rooting list with store := u } := by
      have halike : (t.rooting list).Alike { t.rooting list with store := u } := ⟨rfl, rfl, rfl⟩
      rcases halike.same_or_purgesRoots_of_blockAnswer hv with hsame | ⟨g, gone, hpurges⟩
      · exact hsame.losesOnlyDropped
      · exact hpurges.losesOnlyDropped hrooting
    exact honly.erase hids
  · rcases hends with ⟨error, -, rfl⟩ | ⟨q', -, -, rfl⟩ | ⟨q', list'', rfl, hlist, rfl⟩
    · cases hq
    · cases hq
    · cases hq
      obtain ⟨block, hb⟩ : ∃ block, q.block 1 = .ok block := Address.exists_block q.position_lt
      have hqmem : q ∈ block := List.mem_of_mem_head? (Address.head?_block Nat.one_pos hb)
      have hblank : u.heap.get? q = some .blank := Store.blank_of_allocate ha hb hqmem
      refine ⟨Option.some.inj (hlist.symm.trans hkept), hblank, fun p hp hc => ?_⟩
      intro heq
      exact hapart q block rfl hb p (hsub hp) hc (heq ▸ hqmem)

/-- What an attempt to hang a list onto a chain does to the cells and the roots. -/
structure Pushes (t : Tenant) (chain : RetainedLists) (list : Address) (iteration : Nat)
    (a : Except RunError RetainedLists) (f : Address → Address) (t' : Tenant) : Prop where
  rooted : t.roots.next + 1 < Word.limit
  requests : (t.rooting list).Requests t'
  cells : t.store.heap.Transports (t.spared list t') f t'.store.heap
  still : t'.collections = t.collections → f = id
  roots : ∀ id, t.own id ∉ t.leased → (chain.root = some id → ∃ e, a = .error e) →
    ∀ p, t.roots.get? id = some p → t'.roots.get? id = some (f p)
  /-- A refusal leaves the roots as they are, but for those whose owners are gone. -/
  refused : ∀ e, a = .error e → t.LosesOnlyDropped t'
  /-- Else there is one more spine cell, and a root on it. -/
  hung : (∀ id, chain.root = some id → t.own id ∉ t.leased ∧ id ∈ t.ids) →
    ∀ chain', a = .ok chain' → ∃ id q d,
      chain' = ⟨some id, chain.iterations.push iteration⟩ ∧ t'.roots.get? id = some q ∧
      t'.store.heap.get? q = some d ∧ d.isMarked = false ∧ d.car = .ref (f list) ∧
      d.cdr.ref? = (chain.root.bind t.roots.get?).map f ∧
      ((chain.root = some id ∧ t.LosesOnlyDropped t') ∨
        (chain.root = none ∧ t.own id ∉ t.issued ∧ t'.own id ∉ t'.leased ∧
          ∃ kept, t'.ids = kept ++ [id] ∧ kept.Sublist t.ids ∧
            ∀ id' ∈ t.ids, id' ∉ kept → t'.Dropped (t.own id')))

theorem Pushes.steps {a : Except RunError RetainedLists} (h : t.Pushes chain list iteration a f t') :
    Relation.ReflTransGen (Step { values := Set.univ }) t t' :=
  h.requests.steps.head (step_rooting h.rooted list)

namespace AllocatesSpine

variable {w : Tenant} {v : Store} {list' : Address}

/-- The cells are not touched by what is written into the spine cell. -/
theorem cells_hung (hf : t.AllocatesSpine list (.ok (q, list')) f w) {s' : Store}
    (hcounters : s'.heap.counters = w.store.heap.counters)
    (hothers : ∀ p, p ≠ q → s'.heap.get? p = w.store.heap.get? p) :
    t.store.heap.Transports (t.spared list { w with store := s' }) f s'.heap := by
  intro p hp c hc
  have hp' : p ∈ t.spared list w := by
    rwa [spared, collections, show Store.heap _ = s'.heap from rfl, hcounters] at hp
  obtain ⟨-, -, hapart⟩ := hf.spine q list' rfl
  obtain ⟨d, hd, hcd⟩ := hf.cells p hp' c hc
  exact ⟨d, (hothers _ (hapart p hp' (Heap.contains_iff.2 ⟨c, hc⟩))).trans hd, hcd⟩

/-- The first spine cell comes with a root on it. -/
theorem begun (hf : t.AllocatesSpine list (.ok (q, list')) f w) (ht : t.Orderly)
    (hroot : chain.root = none)
    (hwrites : WritesSpine w.store q list' none v) {s' : Store}
    (ha : v.addRoot q = .ok ⟨v.heap.roots.next⟩ s') :
    t.Pushes chain list iteration
      (.ok ⟨some ⟨v.heap.roots.next⟩, chain.iterations.push iteration⟩) f
      { w with store := s', issued := w.own ⟨v.heap.roots.next⟩ :: w.issued } := by
  obtain ⟨-, -, rfl⟩ := Store.addRoot_eq_ok_iff.1 ha
  obtain ⟨rfl, hblank, -⟩ := hf.spine q list' rfl
  obtain ⟨hsteps, ⟨d, hd, hm, hcar, hcdr⟩, hothers, hroots, hcounters, hvalues⟩ :=
    writesSpine_cases (r := { values := Set.univ }) hblank (Set.notMem_empty q) hwrites
  have hw : w.Orderly := orderly_of_steps hf.steps ht
  have hnext : (⟨w.roots.next⟩ : RootId) ∉ w.ids := fun hmem =>
    hw.next_not_mem (hw.registered _ hmem)
  have hids : (v.heap.roots.insert q).entries.map (·.1) = w.ids ++ [⟨w.roots.next⟩] := by
    rw [hroots]
    exact List.map_append
  have hown : w.own ⟨v.heap.roots.next⟩ = own { w with store := v } ⟨v.heap.roots.next⟩ := by
    rw [own, own, show Tenant.roots { w with store := v } = w.roots from hroots]
  have hadd : Step { values := Set.univ } { w with store := v }
      { w with
        store := v.mapHeap (·.mapRoots (·.insert q))
        issued := w.own ⟨v.heap.roots.next⟩ :: w.issued } := by
    rw [hown]
    exact .addRoot ha
  refine ⟨hf.rooted, ?_, hf.cells_hung hcounters hothers, fun hsame => hf.still ?_,
    fun id hid _ p hp => ?_,
    fun e he => (by cases he), ?_⟩
  · exact hf.requests.trans (hsteps.tail hadd) (congrArg Counters.youngCollections hcounters)
  · exact (congrArg Counters.youngCollections hcounters).symm.trans hsame
  · refine RootRegistry.get?_insert_of_get? ?_
    rw [hroots]
    exact hf.roots id hid p hp
  · rintro - _ ⟨⟩
    have hlease : (⟨v.heap.roots.registry, ⟨v.heap.roots.next⟩⟩ : RootLease) ∉ w.issued := by
      rw [hroots]
      exact hw.next_not_mem
    refine ⟨⟨v.heap.roots.next⟩, q, d, rfl, ?_, hd, hm, hcar, ?_, Or.inr ⟨hroot, fun hmem => ?_,
      fun hmem => hlease (hw.leased _ hmem), w.ids, ?_, hf.losesOnlyDropped.sublist,
        fun id hid hout => ?_⟩⟩
    · refine get?_add_self q ?_
      rw [hroots]
      exact hnext
    · rw [hcdr, hroot]
      rfl
    · refine hlease ((handles_of_steps hf.steps ht).1 _ ?_)
      rwa [← own_of_steps hf.steps, hown] at hmem
    · rw [hroots]
      exact hids
    · exact (hf.losesOnlyDropped.dropped id hid hout).of_values hvalues rfl rfl

/-- Any other one takes the place of that before in the root. -/
theorem continued (hf : t.AllocatesSpine list (.ok (q, list')) f w) {id : RootId}
    (hroot : chain.root = some id)
    (hwrites : WritesSpine w.store q list' (some id) v) :
    t.Pushes chain list iteration (.ok ⟨some id, chain.iterations.push iteration⟩) f
      { w with store := v.mapHeap (·.mapRoots (·.set id q)) } := by
  obtain ⟨rfl, hblank, -⟩ := hf.spine q list' rfl
  obtain ⟨hsteps, ⟨d, hd, hm, hcar, hcdr⟩, hothers, hroots, hcounters, hvalues⟩ :=
    writesSpine_cases (r := { values := Set.univ }) hblank (Set.notMem_empty q) hwrites
  have hget : ∀ id', (v.heap.roots.set id q).get? id' =
      (w.roots.get? id').map fun p => if id' = id then q else p := by
    intro id'
    rw [RootRegistry.get?_set, hroots]
  refine ⟨hf.rooted, ?_, hf.cells_hung hcounters hothers, fun hsame => hf.still ?_,
    fun id' hid' hother p hp => ?_, fun e he => (by cases he), ?_⟩
  · exact hf.requests.trans (hsteps.tail (.setRoot { w with store := v } q (Set.notMem_empty id)))
      (congrArg Counters.youngCollections hcounters)
  · exact (congrArg Counters.youngCollections hcounters).symm.trans hsame
  · have hne : id' ≠ id := by
      rintro rfl
      obtain ⟨e, he⟩ := hother hroot
      cases he
    exact (hget id').trans (by rw [hf.roots id' hid' p hp, Option.map_some, if_neg hne])
  · rintro hchain _ ⟨⟩
    obtain ⟨hid, hmem⟩ := hchain id hroot
    obtain ⟨p₀, hp₀⟩ := exists_get? hmem
    have hhead : w.roots.get? id = some (f p₀) := hf.roots id hid p₀ hp₀
    refine ⟨id, q, d, rfl, (hget id).trans ?_, hd, hm, hcar, ?_, Or.inl ⟨hroot, ?_⟩⟩
    · rw [hhead, Option.map_some, if_pos rfl]
    · rw [hcdr, hroot]
      show w.roots.get? id = (t.roots.get? id).map f
      rw [hhead, hp₀, Option.map_some]
    · have hids : ids { w with store := v.mapHeap (·.mapRoots (·.set id q)) } = w.ids := by
        refine (ids_set (t := { w with store := v }) id q).trans ?_
        rw [ids, ids, show Tenant.roots { w with store := v } = w.roots from hroots]
      refine ⟨hids ▸ hf.losesOnlyDropped.sublist, fun id' hmem' hout => ?_⟩
      exact (hf.losesOnlyDropped.dropped id' hmem' (hids ▸ hout)).of_values hvalues rfl rfl

end AllocatesSpine

/-- **Hanging a list onto a chain** is made of operations of a client, and moves cells at most while
    the spine cell is allocated. -/
theorem exists_pushes {s' : Store} {a : Except RunError RetainedLists} (ht : t.Orderly)
    (h : (chain.push list iteration).run t.store = .ok a s') :
    ∃ f, t.Pushes chain list iteration a f (t.pushing chain a s') := by
  rcases push_cases h with ⟨e, hspine, rfl⟩ | ⟨q, list', u, v, hspine, hwrites, hends⟩
  · obtain ⟨f, hf⟩ := exists_allocatesSpine ht hspine
    exact ⟨f, hf.rooted, hf.requests, hf.cells, hf.still, fun id hid _ => hf.roots id hid,
      fun _ _ => hf.losesOnlyDropped, nofun⟩
  obtain ⟨f, hf⟩ := exists_allocatesSpine ht hspine
  have hown := own_of_steps hf.steps
  refine ⟨f, ?_⟩
  cases hroot : chain.root with
  | none =>
    rw [hroot] at hends hwrites
    obtain ⟨hadd, rfl⟩ := hends
    have hpushes : t.Pushes chain list iteration _ f _ := hf.begun ht hroot hwrites hadd
    rw [hown] at hpushes
    simpa [pushing, after, hroot] using hpushes
  | some id =>
    rw [hroot] at hends hwrites
    obtain ⟨rfl, rfl⟩ := hends
    have hpushes : t.Pushes chain list iteration _ f _ := hf.continued hroot hwrites
    simpa [pushing, after, hroot] using hpushes

end Tenant

end Tenure
