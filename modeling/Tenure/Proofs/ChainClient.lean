/-
  Tenure — a client that keeps a chain of lists.

  It fills lists, hangs them onto the chain, releases the chain and begins again.  In between it does
  whatever it likes elsewhere, and collections move the lists.

  * `Keeper`: the client, its chain, and what is remembered of the past.
  * `Keeper.Step`: what it may do, one operation at a time.
  * `Keeper.Keeps`: what the client relies on; `Keeps.step`, `keeps_of_run`: it remains true.
  * `Keeper.Sound`, `Keeper.Follows`: what the client sees of it, after every operation and from one
    operation to the next.
  * `lists_retained`: whatever has been done, the chain has the lists that were hung onto it.
-/
import Tenure.Proofs.ChainPush

namespace Tenure

/-- A client that keeps a chain of lists. -/
structure Keeper where
  tenant : Tenant
  chain : RetainedLists := .empty
  /-- The lists that were filled since the last collection, and their iterations. -/
  fresh : List (Address × Nat) := []
  /-- The iterations of the lists that were hung onto the chain since its last release, the latest
      first. -/
  pushed : List Nat := []
  /-- The roots that were registered in order to hang lists onto a chain. -/
  hung : List RootId := []

namespace Keeper

/-- The heap of the client. -/
def heap (k : Keeper) : Heap := k.tenant.store.heap

/-- What the client leaves alone: the cells and the root of the chain, and the lists that can be hung
    onto it. -/
def reserve (k : Keeper) : Reserve where
  cells := {p | k.heap.Finds ((k.chain.head? k.heap).toList ++ k.fresh.map (·.1)) p}
  roots := {id | k.chain.root = some id}

/-- The lists that can be hung onto a chain after an operation: none of those before if cells have
    moved. -/
def left (k : Keeper) (t' : Tenant) : List (Address × Nat) :=
  if t'.collections = k.tenant.collections then k.fresh else []

/-- The client after it has asked for a list to be hung onto its chain. -/
def pushing (k : Keeper) (iteration : Nat) (a : Except RunError RetainedLists) (s' : Store) : Keeper where
  tenant := k.tenant.pushing k.chain a s'
  chain := a.toOption.getD k.chain
  fresh := k.left (k.tenant.pushing k.chain a s')
  pushed :=
    match a with
    | .ok _ => iteration :: k.pushed
    | .error _ => k.pushed
  hung := (a.toOption.bind (·.root)).toList ++ ⟨k.tenant.roots.next⟩ :: k.hung

/-- What a client may do that keeps a chain of lists of a length. -/
inductive Step (length : Nat) : Keeper → Keeper → Prop
  /-- Anything else that leaves the chain alone. -/
  | act {k : Keeper} {t' : Tenant} :
    Tenant.Step k.reserve k.tenant t' → Step length k { k with tenant := t', fresh := k.left t' }
  | fill {k : Keeper} {iteration : Nat} {a : Except RunError Address} {s' : Store} :
    (filledList length iteration).run k.tenant.store = .ok a s' →
      Step length k
        { k with
          tenant := k.tenant.after length a s'
          fresh := a.toOption.toList.map (·, iteration) ++ k.left (k.tenant.after length a s') }
  /-- Filled lists may be put to another use. -/
  | forget {k : Keeper} {fresh' : List (Address × Nat)} :
    fresh' ⊆ k.fresh → Step length k { k with fresh := fresh' }
  | push {k : Keeper} {p : Address} {iteration : Nat} {a : Except RunError RetainedLists} {s' : Store} :
    (p, iteration) ∈ k.fresh → (k.chain.push p iteration).run k.tenant.store = .ok a s' →
      Step length k (k.pushing iteration a s')
  | release (k : Keeper) :
    Step length k
      { k with
        tenant := { k.tenant with store := k.chain.release k.tenant.store }
        chain := .empty
        pushed := [] }

/-! ## What the client relies on -/

/-- The lists hang onto the chain, and the roots are as they should be. -/
structure Keeps (length : Nat) (k : Keeper) (es : List (Address × Nat)) : Prop where
  orderly : k.tenant.Orderly
  onSpine : k.heap.OnSpine length (k.chain.head? k.heap) es
  pushed : es.map (·.2) = k.pushed
  iterations : k.chain.iterations.toList.reverse = k.pushed
  rooted : ∀ id, k.chain.root = some id → id ∈ k.tenant.ids ∧ k.tenant.own id ∉ k.tenant.leased
  issued : ∀ id ∈ k.hung, k.tenant.own id ∈ k.tenant.issued
  hung : ∀ id ∈ k.tenant.ids, id ∈ k.hung ↔ k.chain.root = some id
  fresh : ∀ e ∈ k.fresh, k.heap.Filled length e.2 e.1

variable {length iteration : Nat} {k k' : Keeper} {es : List (Address × Nat)} {f : Address → Address}
  {t' : Tenant} {r : Reserve} {p : Address}

namespace Keeps

/-- The chain has a root as long as it has a list. -/
theorem root_eq_none_iff (hk : k.Keeps length es) : k.chain.root = none ↔ k.pushed = [] := by
  have honSpine := hk.onSpine
  rw [← hk.pushed, List.map_eq_nil_iff]
  constructor
  · intro hroot
    cases es with
    | nil => rfl
    | cons e es =>
      obtain ⟨p, c, hp, -⟩ := honSpine
      rw [RetainedLists.head?, hroot] at hp
      cases hp
  · rintro rfl
    cases hroot : k.chain.root with
    | none => rfl
    | some id =>
      obtain ⟨p, hp⟩ := Tenant.exists_get? (hk.rooted id hroot).1
      have hnone : k.chain.head? k.heap = none := honSpine
      rw [RetainedLists.head?, hroot] at hnone
      cases hp.symm.trans hnone

/-- The cells of the chain are found by a mark phase. -/
theorem finds_purged (hk : k.Keeps length es) (hp : k.heap.Finds (k.chain.head? k.heap).toList p) :
    k.heap.purged.Finds k.heap.purged.roots.addresses p := by
  have hfound : k.heap.purged.Finds (k.chain.head? k.heap).toList p :=
    Heap.Finds.congr (h := k.heap) (fun _ => rfl) hp
  refine hfound.mono fun q hq => ?_
  obtain ⟨id, hroot, hget⟩ := Option.bind_eq_some_iff.1 (Option.mem_toList.1 hq)
  obtain ⟨hid, hleased⟩ := hk.rooted id hroot
  exact hk.orderly.mem_purged hget hleased

/-- The head of the chain is where its root says. -/
theorem get?_root (hk : k.Keeps length es) {id : RootId} (hroot : k.chain.root = some id) :
    ∃ q, k.tenant.roots.get? id = some q ∧ k.chain.head? k.heap = some q := by
  obtain ⟨q, hq⟩ := Tenant.exists_get? (hk.rooted id hroot).1
  refine ⟨q, hq, ?_⟩
  rw [RetainedLists.head?, hroot]
  exact hq

/-- If nothing has moved, the lists that were filled can still be hung onto the chain. -/
theorem filled_of_left (hk : k.Keeps length es) {within : Set Address}
    (hf : k.heap.Transports within f t'.store.heap)
    (hstill : t'.collections = k.tenant.collections → f = id)
    (hwithin : t'.collections = k.tenant.collections →
      ∀ e ∈ k.fresh, ∀ q, k.heap.Finds [e.1] q → q ∈ within) :
    ∀ e ∈ k.left t', t'.store.heap.Filled length e.2 e.1 := by
  intro e he
  rw [left] at he
  split at he
  · rename_i hsame
    have hlist := (hk.fresh e he).transport hf (hwithin hsame e he)
    rwa [hstill hsame] at hlist
  · cases he

/-- **What leaves the chain alone** keeps it, and its lists move with their cells. -/
theorem carry (hk : k.Keeps length es) (hf : k.tenant.Transports k.reserve f t')
    (hsteps : Relation.ReflTransGen (Tenant.Step r) k.tenant t') {fresh' : List (Address × Nat)}
    (hfresh : ∀ e ∈ fresh', e ∈ k.left t' ∨ t'.store.heap.Filled length e.2 e.1) {hung' : List RootId}
    (hold : k.hung ⊆ hung')
    (hnew : ∀ id ∈ hung', id ∈ k.hung ∨ (k.tenant.own id ∈ t'.issued ∧ id ∉ t'.ids)) :
    Keeps length { k with tenant := t', fresh := fresh', hung := hung' } (es.map (Heap.moved f)) := by
  obtain ⟨hissued, hleased, hids⟩ := Tenant.handles_of_steps hsteps hk.orderly
  have hown := Tenant.own_of_steps hsteps
  have hroot : ∀ id, k.chain.root = some id → ∀ q, k.tenant.roots.get? id = some q →
      t'.roots.get? id = some (f q) := fun id hid => hf.roots id hid (hk.rooted id hid).2
  have hlasting : ∀ p, k.heap.Finds (k.chain.head? k.heap).toList p →
      p ∈ k.reserve.cells ∩ k.tenant.store.lasting t'.store := fun p hp =>
    ⟨hp.mono (List.subset_append_left _ _), Or.inr (hk.finds_purged hp)⟩
  have hhead : k.chain.head? t'.store.heap = (k.chain.head? k.heap).map f := by
    cases hid : k.chain.root with
    | none =>
      rw [RetainedLists.head?, RetainedLists.head?, hid]
      rfl
    | some id =>
      obtain ⟨q, hq, hstart⟩ := hk.get?_root hid
      rw [hstart, RetainedLists.head?, hid]
      exact hroot id hid q hq
  refine ⟨Tenant.orderly_of_steps hsteps hk.orderly, ?_, ?_, hk.iterations, fun id hid => ?_,
    fun id hid => ?_, fun id hid => ?_, fun e he => ?_⟩
  · show t'.store.heap.OnSpine length (k.chain.head? t'.store.heap) _
    rw [hhead]
    exact hk.onSpine.transport hf.cells hlasting
  · rw [← hk.pushed, List.map_map]
    rfl
  · obtain ⟨q, hq, -⟩ := hk.get?_root hid
    obtain ⟨hmem, hout⟩ := hk.rooted id hid
    refine ⟨Tenant.mem_ids (hroot id hid q hq), fun hlease => hout ?_⟩
    rw [hown] at hlease
    exact hleased _ (hk.orderly.registered id hmem) hlease
  · rw [hown]
    rcases hnew id hid with hmem | ⟨hmem, -⟩
    · exact hissued _ (hk.issued id hmem)
    · exact hmem
  · constructor
    · intro hmem
      have hmem' := (hnew id hmem).resolve_right fun hnone => hnone.2 hid
      exact (hk.hung id (hids id hid (hk.issued id hmem'))).1 hmem'
    · intro hroot
      exact hold ((hk.hung id (hk.rooted id hroot).1).2 hroot)
  · refine (hfresh e he).elim (fun hleft => ?_) fun h => h
    refine hk.filled_of_left hf.cells hf.still (fun hsame e he q hq => ?_) e hleft
    have hsub : [e.1] ⊆ (k.chain.head? k.heap).toList ++ k.fresh.map (·.1) :=
      List.cons_subset.2 ⟨List.mem_append_right _ (List.mem_map_of_mem he), List.nil_subset _⟩
    exact ⟨hq.mono hsub, Or.inl hsame⟩

/-- **A list that is hung onto the chain** is the newest there. -/
theorem hang (hk : k.Keeps length es) (hmem : (p, iteration) ∈ k.fresh) {chain' : RetainedLists}
    {s' : Store} (hp : k.tenant.Pushes k.chain p iteration (.ok chain') f
      (k.tenant.pushing k.chain (.ok chain') s')) :
    Keeps length (k.pushing iteration (.ok chain') s')
      (Heap.moved f (p, iteration) :: es.map (Heap.moved f)) := by
  obtain ⟨id, q, d, rfl, hq, hd, hm, hcar, hcdr, hends⟩ :=
    hp.hung (fun id hid => (hk.rooted id hid).symm) chain' rfl
  obtain ⟨hissued, hleased, hids⟩ := Tenant.handles_of_steps hp.steps hk.orderly
  have hown := Tenant.own_of_steps hp.steps
  have horderly := Tenant.orderly_of_steps hp.steps hk.orderly
  have hnext : (⟨k.tenant.roots.next⟩ : RootId) ∉ k.tenant.ids := fun hmem =>
    hk.orderly.next_not_mem (hk.orderly.registered _ hmem)
  have hspine : ∀ x, k.heap.Finds (k.chain.head? k.heap).toList x →
      x ∈ k.tenant.spared p
        (k.tenant.pushing k.chain (.ok ⟨some id, k.chain.iterations.push iteration⟩) s') :=
    fun x hx => Or.inr ((hk.finds_purged hx).mono (List.subset_cons_self _ _))
  have hlist : s'.heap.Filled length iteration (f p) := by
    refine (hk.fresh _ hmem).transport hp.cells fun x hx => Or.inr ?_
    have hfound : k.heap.purged.Finds [p] x := Heap.Finds.congr (h := k.heap) (fun _ => rfl) hx
    exact hfound.mono (by simp)
  -- of the roots that come with the call, only that of the chain remains
  have hother : ∀ id' ∈
      (k.tenant.pushing k.chain (.ok ⟨some id, k.chain.iterations.push iteration⟩) s').ids,
      id' = id ∨ id' ∈ k.tenant.ids := by
    intro id' hid'
    rcases hends with ⟨-, honly⟩ | ⟨-, -, -, kept, hkept, hsub, -⟩
    · exact Or.inr (honly.sublist.mem hid')
    · rw [hkept] at hid'
      exact (List.mem_append.1 hid').symm.imp List.mem_singleton.1 hsub.mem
  have hunleased : k.tenant.own id ∉
      (k.tenant.pushing k.chain (.ok ⟨some id, k.chain.iterations.push iteration⟩) s').leased := by
    rcases hends with ⟨hroot, -⟩ | ⟨-, -, hout, -⟩
    · obtain ⟨hmem, hout⟩ := hk.rooted id hroot
      exact fun hlease => hout (hleased _ (hk.orderly.registered id hmem) hlease)
    · rwa [hown] at hout
  refine ⟨horderly, ?_, ?_, ?_, ?_, fun id' hid' => ?_, fun id' hid' => ⟨fun hnew => ?_, ?_⟩, ?_⟩
  · refine ⟨q, d, hq, hd, hm, hcar, hlist, ?_⟩
    rw [hcdr]
    exact hk.onSpine.transport hp.cells hspine
  · show iteration :: (es.map (Heap.moved f)).map (·.2) = iteration :: k.pushed
    rw [← hk.pushed, List.map_map]
    rfl
  · show (k.chain.iterations.push iteration).toList.reverse = iteration :: k.pushed
    rw [Array.toList_push, List.reverse_append, hk.iterations]
    rfl
  · rintro _ ⟨⟩
    exact ⟨Tenant.mem_ids hq, fun hlease => hunleased (hown id ▸ hlease)⟩
  · show Tenant.own (k.tenant.pushing _ _ _) id' ∈ _
    rw [hown]
    rcases List.mem_cons.1 hid' with rfl | hid'
    · rw [← hown]
      exact horderly.registered _ (Tenant.mem_ids hq)
    · rcases List.mem_cons.1 hid' with rfl | hid'
      · exact List.mem_append_right _ List.mem_cons_self
      · exact hissued _ (hk.issued id' hid')
  · rcases List.mem_cons.1 hnew with rfl | hnew
    · rfl
    rcases hother id' hid' with rfl | hold
    · rfl
    rcases List.mem_cons.1 hnew with rfl | hnew
    · exact absurd hold hnext
    · have hroot := (hk.hung id' hold).1 hnew
      rcases hends with ⟨hroot', -⟩ | ⟨hnone, -⟩
      · exact hroot'.symm.trans hroot
      · cases hnone.symm.trans hroot
  · rintro ⟨⟩
    exact List.mem_cons_self
  · exact hk.filled_of_left hp.cells hp.still fun hsame _ _ _ _ => Or.inl hsame

/-- **The release of the chain** takes its root away. -/
theorem release (hk : k.Keeps length es) :
    Keeps length
      { k with
        tenant := { k.tenant with store := k.chain.release k.tenant.store }
        chain := .empty
        pushed := [] } [] := by
  rcases k.chain.release_cases k.tenant.store with ⟨hroot, hstore⟩ | ⟨id₀, hroot, hstore⟩
  · rw [hstore]
    refine ⟨hk.orderly, rfl, rfl, rfl, nofun, hk.issued, fun id hid => ?_, hk.fresh⟩
    rw [hk.hung id hid, hroot]
    rfl
  · have hids := Tenant.ids_erase (t := k.tenant) id₀
    rw [hstore]
    refine ⟨?_, rfl, rfl, rfl, nofun, hk.issued, fun id hid => ⟨fun hmem => ?_, nofun⟩,
      fun e he => ?_⟩
    · exact (Tenant.Step.eraseRoot (r := {}) k.tenant (Set.notMem_empty id₀)).effect.orderly hk.orderly
    · rw [show Tenant.ids _ = _ from hids] at hid
      obtain ⟨hold, hne⟩ := List.mem_filter.1 hid
      have hsame := (hk.hung id hold).1 hmem
      rw [hroot] at hsame
      cases hsame
      exact absurd rfl (bne_iff_ne.1 hne)
    · have hsame : k.heap.Transports Set.univ id (k.heap.mapRoots (·.erase id₀)) :=
        .of_unmoved (.of_get? fun _ => rfl)
      exact (hk.fresh e he).transport hsame fun _ _ => trivial

end Keeps

/-! ## Whole runs -/

/-- What becomes of the lists from one operation to the next: they move with their cells, and another
    one is hung in front of them, or the chain is released. -/
structure Follows (k : Keeper) (es : List (Address × Nat)) (f : Address → Address) (k' : Keeper)
    (es' : List (Address × Nat)) : Prop where
  cells : k.heap.Transports {p | k.heap.Finds (k.chain.head? k.heap).toList p} f k'.heap
  lists : (k'.chain = k.chain ∧ es' = es.map (Heap.moved f)) ∨
    (∃ e ∈ k.fresh, k'.chain.iterations = k.chain.iterations.push e.2 ∧
      es' = Heap.moved f e :: es.map (Heap.moved f)) ∨
    (k'.chain = .empty ∧ es' = [])

/-- What the client sees of its chain. -/
structure Sound (length : Nat) (k : Keeper) : Prop where
  verified : k.chain.verify k.heap length = .ok .intact
  size : k.chain.size = k.pushed.length
  /-- The walk along the spine comes to the lists that were hung onto the chain. -/
  lists : ∃ es, k.chain.HasLists k.heap length es ∧ es.map (·.2) = k.pushed
  /-- One of the roots that were registered for chains is left, or none if there are no lists. -/
  roots : k.tenant.ids.filter (· ∈ k.hung) = k.chain.root.toList
  root : k.chain.root = none ↔ k.pushed = []

theorem Keeps.sound (hk : k.Keeps length es) : k.Sound length where
  verified := (RetainedLists.hasLists_of_onSpine hk.onSpine).held
    (hk.pushed.trans hk.iterations.symm) |>.verify
  size := by
    rw [← hk.iterations, List.length_reverse, Array.length_toList]
    rfl
  lists := ⟨es, RetainedLists.hasLists_of_onSpine hk.onSpine, hk.pushed⟩
  roots := by
    have hsame : k.tenant.ids.filter (· ∈ k.hung) =
        k.tenant.ids.filter fun id => k.chain.root = some id :=
      List.filter_congr fun id hid => decide_eq_decide.2 (hk.hung id hid)
    rw [hsame]
    cases hroot : k.chain.root with
    | none => exact List.filter_eq_nil_iff.2 fun id _ hid => nomatch of_decide_eq_true hid
    | some id =>
      obtain ⟨hid, -⟩ := hk.rooted id hroot
      have hnodup : k.tenant.ids.Nodup := hk.orderly.sorted.imp fun hlt heq =>
        absurd (congrArg RootId.serial heq) (Nat.ne_of_lt hlt)
      have hbeq : k.tenant.ids.filter (fun id' => (some id : Option RootId) = some id') =
          k.tenant.ids.filter (· == id) :=
        List.filter_congr fun id' _ => by simp [eq_comm, beq_eq_decide]
      rw [hbeq, List.filter_beq, List.count_eq_one_of_mem hnodup hid]
      rfl
  root := hk.root_eq_none_iff

/-- What leaves the chain alone lets the lists move with their cells. -/
theorem Keeps.follows (hk : k.Keeps length es) {fresh' : List (Address × Nat)} {hung' : List RootId}
    (hf : k.tenant.Transports k.reserve f t') :
    k.Follows es f { k with tenant := t', fresh := fresh', hung := hung' } (es.map (Heap.moved f)) where
  cells := hf.cells.mono fun _ hp =>
    ⟨hp.mono (List.subset_append_left _ _), Or.inr (hk.finds_purged hp)⟩
  lists := Or.inl ⟨rfl, rfl⟩

theorem Keeps.step (hk : k.Keeps length es) (h : Step length k k') :
    ∃ f es', k'.Keeps length es' ∧ k.Follows es f k' es' := by
  cases h with
  | @act t' h =>
    obtain ⟨f, hf⟩ := h.exists_transports hk.orderly
    exact ⟨f, _, hk.carry hf (.single h) (fun e he => Or.inl he) (List.Subset.refl _) fun _ => Or.inl,
      hk.follows hf⟩
  | @fill iteration a s' h =>
    obtain ⟨f, hstore, hfilled⟩ := exists_transports_filledList h
    have hf : k.tenant.Transports k.reserve f (k.tenant.after length a s') := .of_store hk.orderly hstore
    refine ⟨f, _, hk.carry hf (Tenant.requests_filledList h).steps (fun e he => ?_) (List.Subset.refl _)
      fun _ => Or.inl, hk.follows hf⟩
    rcases List.mem_append.1 he with hnew | hleft
    · cases a with
      | ok p =>
        obtain rfl := List.mem_singleton.1 hnew
        exact Or.inr (hfilled p rfl)
      | error e => cases hnew
    · exact Or.inl hleft
  | @forget fresh' hsub =>
    have hsame : ∀ e : Address × Nat, Heap.moved id e = e := fun _ => rfl
    refine ⟨id, es, { hk with fresh := fun e he => hk.fresh e (hsub he) }, ?_, Or.inl ⟨rfl, ?_⟩⟩
    · exact .of_unmoved (.of_get? fun _ => rfl)
    · rw [List.map_congr_left fun e _ => hsame e, List.map_id']
  | @push p iteration a s' hmem h =>
    obtain ⟨f, hp⟩ := Tenant.exists_pushes hk.orderly h
    cases a with
    | error e =>
      have hf : k.tenant.Transports k.reserve f (k.tenant.pushing k.chain (.error e) s') :=
        ⟨hp.cells.mono fun p hp => hp.2.imp_right fun hfound => hfound.mono (List.subset_cons_self _ _),
          fun id hid hout => hp.roots id hout fun _ => ⟨e, rfl⟩, hp.still⟩
      refine ⟨f, _, hk.carry hf hp.steps (fun e he => Or.inl he) (List.subset_cons_self _ _)
        fun id hid => ?_, hk.follows hf⟩
      refine (List.mem_cons.1 hid).symm.imp_right fun hnew => ?_
      subst hnew
      refine ⟨List.mem_append_right _ List.mem_cons_self, fun hout => ?_⟩
      exact hk.orderly.next_not_mem (hk.orderly.registered _ ((hp.refused e rfl).sublist.mem hout))
    | ok chain' =>
      obtain ⟨id, q, d, rfl, -⟩ := hp.hung (fun id hid => (hk.rooted id hid).symm) chain' rfl
      refine ⟨f, _, hk.hang hmem hp, ?_, Or.inr (Or.inl ⟨_, hmem, rfl, rfl⟩)⟩
      exact hp.cells.mono fun x hx => Or.inr ((hk.finds_purged hx).mono (List.subset_cons_self _ _))
  | release =>
    refine ⟨id, [], hk.release, .of_unmoved (.of_get? fun p => ?_), Or.inr (Or.inr ⟨rfl, rfl⟩)⟩
    show (k.chain.release k.tenant.store).heap.get? p = _
    rcases k.chain.release_cases k.tenant.store with ⟨-, hstore⟩ | ⟨id, -, hstore⟩
    · rw [hstore]
      rfl
    · rw [hstore]
      rfl

theorem keeps_of_run {k₀ : Keeper} (hrun : Relation.ReflTransGen (Step length) k₀ k)
    (h₀ : ∃ es, k₀.Keeps length es) : ∃ es, k.Keeps length es := by
  induction hrun with
  | refl => exact h₀
  | tail _ hstep ih =>
    obtain ⟨es, hk⟩ := ih
    obtain ⟨f, es', hk', -⟩ := hk.step hstep
    exact ⟨es', hk'⟩

/-- A client that has not begun with its chain. -/
theorem keeps_of_orderly {t : Tenant} (ht : t.Orderly) : Keeps length { tenant := t } [] :=
  ⟨ht, rfl, rfl, rfl, nofun, nofun, fun _ _ => ⟨nofun, nofun⟩, nofun⟩

/-- **Lists that are hung onto a chain are kept**, whatever a client has done since it made its first
    heap. -/
theorem lists_retained {t₀ t : Tenant} (h₀ : t₀.Fresh) (hbefore : Tenant.History t₀ t)
    (hrun : Relation.ReflTransGen (Step length) { tenant := t } k) :
    -- the chain has the lists that were hung onto it, and one root
    k.Sound length ∧
      -- they move with their cells, and every other one comes in front of them
      (∀ k', Step length k k' → ∃ f es es', k.chain.HasLists k.heap length es ∧
        k'.chain.HasLists k'.heap length es' ∧ k.Follows es f k' es') ∧
      -- a list that is refused leaves the chain and the roots as they are
      ∀ p iteration e s', (p, iteration) ∈ k.fresh →
        (k.chain.push p iteration).run k.tenant.store = .ok (.error e) s' →
          (k.pushing iteration (.error e) s').chain = k.chain ∧
            (k.pushing iteration (.error e) s').pushed = k.pushed ∧
            k.tenant.LosesOnlyDropped (k.pushing iteration (.error e) s').tenant := by
  obtain ⟨-, ht⟩ := hbefore.orderly h₀.balanced h₀.orderly
  obtain ⟨es, hk⟩ := keeps_of_run hrun ⟨[], keeps_of_orderly ht⟩
  refine ⟨hk.sound, fun k' hstep => ?_, fun p iteration e s' hmem h => ⟨rfl, rfl, ?_⟩⟩
  · obtain ⟨f, es', hk', hfollows⟩ := hk.step hstep
    exact ⟨f, es, es', RetainedLists.hasLists_of_onSpine hk.onSpine,
      RetainedLists.hasLists_of_onSpine hk'.onSpine, hfollows⟩
  · obtain ⟨f, hp⟩ := Tenant.exists_pushes hk.orderly h
    exact hp.refused e rfl

/-- The settings of a heap with room for two spine cells and three lists of two cells. -/
def cosy : Settings where
  youngCapacity := 8
  oldCapacity := 8
  oldHighWater := 8
  promotionThreshold := 3

/-- A client that has just begun with such a heap. -/
def novice : Tenant where
  store := { heap := .make cosy 0 }

/-- The cells of the list of an iteration from an index on. -/
def pair (index iteration : Nat) : Array Cell :=
  #[{ car := .int 1, cdr := .ref ⟨.young 0, .ofNat (index + 1)⟩ }, { car := .int (.ofNat iteration) }]

/-- The client after it has filled one more list. -/
def filling (k : Keeper) (p : Address) (iteration : Nat) (active : Array Cell) : Keeper :=
  { k with
    tenant := k.tenant.after 2 (.ok p : Except RunError Address)
      { heap := { k.heap with active } }
    fresh := (p, iteration) :: k.fresh }

/-- The client when it has filled one list. -/
def filledOnce : Keeper := filling { tenant := novice } ⟨.young 0, 0⟩ 3 (pair 0 3)

/-- The list hangs off a spine cell. -/
def hangingOnce : Keeper :=
  filledOnce.pushing 3 (.ok ⟨some ⟨1⟩, #[3]⟩)
    { heap :=
        { settings := cosy
          active := pair 0 3 ++ #[{ car := .ref ⟨.young 0, 0⟩ }]
          roots := { entries := [(⟨1⟩, ⟨.young 0, 2⟩)], next := 2 } } }

/-- There is a second list. -/
def filledTwice : Keeper := filling hangingOnce ⟨.young 0, 3⟩ 4 (hangingOnce.heap.active ++ pair 3 4)

/-- Two lists, each before the spine cell that it hangs off. -/
def hung₂ : Array Cell :=
  pair 0 3 ++ #[{ car := .ref ⟨.young 0, 0⟩ }] ++
    pair 3 4 ++ #[{ car := .ref ⟨.young 0, 3⟩, cdr := .ref ⟨.young 0, 2⟩ }]

/-- The second list hangs in front of the first. -/
def hangingTwice : Keeper :=
  filledTwice.pushing 4 (.ok ⟨some ⟨1⟩, #[3, 4]⟩)
    { heap :=
        { settings := cosy
          active := hung₂
          roots := { entries := [(⟨1⟩, ⟨.young 0, 5⟩)], next := 3 } } }

/-- There is a third list, for which there is no room on the spine. -/
def filledThrice : Keeper := filling hangingTwice ⟨.young 0, 6⟩ 5 (hung₂ ++ pair 6 5)

theorem runs_filledThrice : Relation.ReflTransGen (Step 2) { tenant := novice } filledThrice := by
  have hfill₁ : Step 2 { tenant := novice } filledOnce :=
    .fill (show (filledList 2 3).run _ = .ok (.ok ⟨.young 0, 0⟩) filledOnce.tenant.store from rfl)
  have hpush₁ : Step 2 filledOnce hangingOnce :=
    .push (p := ⟨.young 0, 0⟩) List.mem_cons_self
      (show (RetainedLists.push .empty ⟨.young 0, 0⟩ 3).run _ =
        .ok (.ok ⟨some ⟨1⟩, #[3]⟩) hangingOnce.tenant.store from rfl)
  have hfill₂ : Step 2 hangingOnce filledTwice :=
    .fill (show (filledList 2 4).run _ = .ok (.ok ⟨.young 0, 3⟩) filledTwice.tenant.store from rfl)
  have hpush₂ : Step 2 filledTwice hangingTwice :=
    .push (p := ⟨.young 0, 3⟩) List.mem_cons_self
      (show (RetainedLists.push ⟨some ⟨1⟩, #[3]⟩ ⟨.young 0, 3⟩ 4).run _ =
        .ok (.ok ⟨some ⟨1⟩, #[3, 4]⟩) hangingTwice.tenant.store from rfl)
  have hfill₃ : Step 2 hangingTwice filledThrice :=
    .fill (show (filledList 2 5).run _ = .ok (.ok ⟨.young 0, 6⟩) filledThrice.tenant.store from rfl)
  exact ((((Relation.ReflTransGen.single hfill₁).tail hpush₁).tail hfill₂).tail hpush₂).tail hfill₃

/-- The third list is refused after a collection has moved all cells, and then the chain is released. -/
theorem lists_retained_filledThrice : novice.Fresh ∧ Tenant.History novice novice ∧
    ∃ e s', (filledThrice.chain.push ⟨.young 0, 6⟩ 5).run filledThrice.tenant.store = .ok (.error e) s' ∧
      ∃ k k', Relation.ReflTransGen (Step 2) { tenant := novice } k ∧ Step 2 k k' ∧
        k.tenant.collections = 1 ∧ k.pushed = [4, 3] ∧ k.Sound 2 ∧
          filledThrice.tenant.LosesOnlyDropped k.tenant ∧ k'.pushed = [] ∧ k'.Sound 2 := by
  have hfresh : novice.Fresh := ⟨cosy, 0, _, rfl, rfl⟩
  have hchecks : Action.passes (RetainedLists.push ⟨some ⟨1⟩, #[3, 4]⟩ ⟨.young 0, 6⟩ 5).run (fun a s =>
      !Action.accepts (fun _ => true) a && s.heap.counters.youngCollections == 1)
        { heap :=
            { settings := cosy
              active := hung₂ ++ pair 6 5
              roots := { entries := [(⟨1⟩, ⟨.young 0, 5⟩)], next := 3 } } } = true := by
    simp only [RetainedLists.push, RetainedLists.spineFor, Store.allocate, Store.makeRoom,
      Action.get_eq, Action.modify_eq, Attempt.get_eq, Attempt.modify_eq]
    cbv
  obtain ⟨a, s', hpush, hchecks⟩ := Action.exists_of_passes hchecks
  obtain ⟨hnone, hcollections⟩ := Bool.and_eq_true_iff.1 hchecks
  cases a with
  | ok chain => cases hnone
  | error e =>
    have hrun := runs_filledThrice.tail (.push (p := ⟨.young 0, 6⟩) List.mem_cons_self hpush)
    have hrelease : Step 2 _ _ := .release (filledThrice.pushing 5 (.error e) s')
    obtain ⟨-, -, hrefused⟩ := lists_retained hfresh .refl runs_filledThrice
    obtain ⟨-, -, honly⟩ := hrefused _ 5 _ _ List.mem_cons_self hpush
    exact ⟨hfresh, .refl, e, s', hpush, _, _, hrun, hrelease, beq_iff_eq.1 hcollections, rfl,
      (lists_retained hfresh .refl hrun).1, honly, rfl,
      (lists_retained hfresh .refl (hrun.tail hrelease)).1⟩

end Keeper

end Tenure
