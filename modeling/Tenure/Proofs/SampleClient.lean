/-
  Tenure — a client that keeps the sample structure.

  It does whatever it likes elsewhere: it fills lists, hangs them onto chains, and collections move the
  cells of the structure.

  * `Sample.Laid`: the structure is in a heap; `Laid.verify`: it is found intact then.
  * `Sample.Step`: what the client may do, one operation at a time.
  * `Sample.Keeps`: what it relies on; `Keeps.step`, `keeps_of_run`: it remains true.
  * `Sample.Ignores`: what the client may do that leaves the last cell to itself.
  * `Sample.HoldsOrphan`: the account of the file in that cell; `HoldsOrphan.step`,
    `holdsOrphan_of_run`.
  * `sample_kept`: both, from when the structure has been made.
-/
import Tenure.Proofs.SampleConstruction
import Tenure.Proofs.CellAccount
import Tenure.Proofs.NewCells

namespace Tenure

/-- No address is in a datum. -/
theorem Datum.mapRef_slot (x : Datum) (f : Address → Address) : x.slot.mapRef f = x.slot := by
  obtain ⟨slot, hnone⟩ := x
  cases slot with
  | ref p => cases hnone
  | _ => rfl

namespace Heap

variable {h h' : Heap} {cells : List Address} {xs : List Datum} {f : Address → Address}
  {within : Set Address}

/-- The cars of some cells hold some data. -/
def Shows (h : Heap) : List Address → List Datum → Prop :=
  List.Forall₂ fun p x => ∃ c, h.get? p = some c ∧ c.car = x.slot

theorem Shows.map_car (hs : h.Shows cells xs) :
    cells.map (fun p => ((h.get? p).getD .blank).car) = xs.map (·.slot) := by
  induction hs with
  | nil => rfl
  | cons hx _ ih =>
    obtain ⟨c, hc, hcar⟩ := hx
    rw [List.map_cons, List.map_cons, ih, hc]
    exact congrArg (· :: _) hcar

theorem Shows.transport (hs : h.Shows cells xs) (hf : h.Transports within f h')
    (hwithin : ∀ p ∈ cells, p ∈ within) : h'.Shows (cells.map f) xs := by
  induction hs with
  | nil => exact .nil
  | @cons p x cells xs hx _ ih =>
    obtain ⟨c, hc, hcar⟩ := hx
    obtain ⟨c', hc', ⟨hcar', -⟩, -⟩ := hf p (hwithin p List.mem_cons_self) c hc
    refine .cons ⟨c', hc', ?_⟩ (ih fun q hq => hwithin q (List.mem_cons_of_mem _ hq))
    rw [hcar', hcar, x.mapRef_slot]

end Heap

namespace Sample

variable {d : Sample} {s s' : Store} {t t' : Tenant} {f : Address → Address} {cells : List Address}
  {r : Reserve}

/-! ## The structure in a heap -/

/-- Five cells make a list that has the payloads, and two more roots are on its cells. -/
structure Laid (d : Sample) (h : Heap) (cells : List Address) : Prop where
  leads : h.Leads (d.head? h) cells
  cars : h.Shows cells d.payloads
  second : h.roots.get? d.second = cells[1]?
  fourth : h.roots.get? d.fourth = cells[3]?

/-- The roots of the structure. -/
def roots (d : Sample) : Set RootId := {d.head, d.second, d.fourth}

theorem Laid.exists_cells {h : Heap} (hd : d.Laid h cells) : ∃ p₀ p₁ p₂ p₃ p₄,
    cells = [p₀, p₁, p₂, p₃, p₄] ∧ d.head? h = some p₀ ∧
      ∃ c, h.get? p₂ = some c ∧ c.car = .value d.linked := by
  obtain ⟨leads, cars, -, -⟩ := hd
  obtain _ | ⟨-, _ | ⟨-, _ | ⟨hc, _ | ⟨-, _ | ⟨-, ⟨⟩⟩⟩⟩⟩⟩ := cars
  exact ⟨_, _, _, _, _, rfl, leads.1, hc⟩

/-- **A structure that is in the heap** is found intact, if the first file has two references. -/
theorem Laid.verify (hd : d.Laid s.heap cells) (hlinked : s.values.count d.linked = 2) :
    d.verify s = .intact := by
  obtain ⟨p₀, p₁, p₂, p₃, p₄, rfl, hhead, -⟩ := hd.exists_cells
  have hleads := hd.leads
  rw [hhead] at hleads
  exact verify_eq_intact_of hhead hleads.walkAll hd.cars.map_car hd.second hd.fourth hlinked

/-- **The structure is found again** with its cells and its roots. -/
theorem Laid.transport {h h' : Heap} (hd : d.Laid h cells)
    (hf : h.Transports {p | h.Finds (d.head? h).toList p} f h')
    (hroots : ∀ id ∈ d.roots, ∀ p, h.roots.get? id = some p → h'.roots.get? id = some (f p)) :
    d.Laid h' (cells.map f) := by
  have hcells : ∀ p ∈ cells, h.Finds (d.head? h).toList p := hd.leads.finds
  obtain ⟨p₀, p₁, p₂, p₃, p₄, rfl, hhead, -⟩ := hd.exists_cells
  have hhead' : d.head? h' = (d.head? h).map f := by
    rw [hhead]
    exact hroots d.head (by simp [roots]) p₀ hhead
  refine ⟨hhead' ▸ hd.leads.transport hf hcells, hd.cars.transport hf hcells, ?_, ?_⟩
  · exact hroots d.second (by simp [roots]) p₁ hd.second
  · exact hroots d.fourth (by simp [roots]) p₃ hd.fourth

/-! ## What the client does -/

/-- What the client leaves alone: the cells of the structure, its roots, and the first file. -/
def reserve (d : Sample) (h : Heap) : Reserve where
  cells := {p | h.Finds (d.head? h).toList p}
  roots := d.roots
  values := {d.linked}

/-- What a client may do that keeps the structure. -/
inductive Step (d : Sample) : Tenant → Tenant → Prop
  /-- Anything that leaves the structure alone. -/
  | act {t t' : Tenant} : Tenant.Step (d.reserve t.store.heap) t t' → Step d t t'
  | fill {t : Tenant} {length iteration : Nat} {a : Except RunError Address} {s' : Store} :
    (filledList length iteration).run t.store = .ok a s' → Step d t (t.after length a s')
  | push {t : Tenant} {chain : RetainedLists} {list : Address} {iteration : Nat}
    {a : Except RunError RetainedLists} {s' : Store} : (∀ id, chain.root = some id → id ∉ d.roots) →
      (chain.push list iteration).run t.store = .ok a s' → Step d t (t.pushing chain a s')
  | release (t : Tenant) {chain : RetainedLists} : (∀ id, chain.root = some id → id ∉ d.roots) →
      Step d t { t with store := chain.release t.store }

/-- The structure is in the heap, its roots have no owners, and the first file has two references at
    most, one of them in the hands of the client. -/
structure Keeps (d : Sample) (t : Tenant) : Prop where
  orderly : t.Orderly
  balanced : t.Balanced
  laid : ∃ cells, d.Laid t.store.heap cells
  plain : ∀ id ∈ d.roots, t.own id ∈ t.issued ∧ t.own id ∉ t.leased
  held : 0 < t.handles.count d.linked
  count : t.store.values.count d.linked ≤ 2

namespace Keeps

/-- **What the client sees**: the structure is found intact. -/
theorem verify (hk : d.Keeps t) : d.verify t.store = .intact := by
  obtain ⟨cells, hd⟩ := hk.laid
  obtain ⟨-, -, p, -, -, -, -, c, hc, hcar⟩ := hd.exists_cells
  have htwo := hk.balanced.two_le_count hk.held hc hcar
  exact hd.verify (Nat.le_antisymm hk.count htwo)

/-- The cells of the structure are found by a mark phase. -/
theorem finds_purged (hk : d.Keeps t) {p : Address}
    (hp : t.store.heap.Finds (d.head? t.store.heap).toList p) :
    t.store.heap.purged.Finds t.store.heap.purged.roots.addresses p := by
  have hfound : t.store.heap.purged.Finds (d.head? t.store.heap).toList p :=
    Heap.Finds.congr (h := t.store.heap) (fun _ => rfl) hp
  refine hfound.mono fun q hq => ?_
  exact hk.orderly.mem_purged (Option.mem_toList.1 hq) (hk.plain d.head (by simp [roots])).2

/-- **What leaves the structure alone** keeps it. -/
theorem carry (hk : d.Keeps t) (hf : t.Transports (d.reserve t.store.heap) f t')
    (hsteps : Relation.ReflTransGen (Tenant.Step r) t t') (hr : d.linked ∈ r.values) : d.Keeps t' := by
  obtain ⟨cells, hd⟩ := hk.laid
  obtain ⟨hissued, hleased, -⟩ := Tenant.handles_of_steps hsteps hk.orderly
  obtain ⟨hcount, hhandles⟩ := Tenant.count_le_of_steps hsteps hk.balanced hr hk.held
  have hown := Tenant.own_of_steps hsteps
  refine ⟨Tenant.orderly_of_steps hsteps hk.orderly, Tenant.balanced_of_steps hsteps hk.balanced,
    ⟨cells.map f, hd.transport (hf.cells.mono fun p hp => ⟨hp, Or.inr (hk.finds_purged hp)⟩)
      fun id hid p hp => hf.roots id hid (hk.plain id hid).2 p hp⟩, fun id hid => ?_, ?_, ?_⟩
  · obtain ⟨hmem, hout⟩ := hk.plain id hid
    rw [hown]
    exact ⟨hissued _ hmem, fun hlease => hout (hleased _ hmem hlease)⟩
  · rw [hhandles]
    exact hk.held
  · exact hcount.trans hk.count

theorem step (hk : d.Keeps t) (h : Step d t t') : d.Keeps t' := by
  cases h with
  | act h =>
    obtain ⟨f, hf⟩ := h.exists_transports hk.orderly
    exact hk.carry hf (.single h) rfl
  | fill h =>
    obtain ⟨f, hf, -⟩ := exists_transports_filledList h
    exact hk.carry (.of_store hk.orderly hf) (Tenant.requests_filledList h).steps trivial
  | @push chain list iteration a s' hchain h =>
    obtain ⟨f, hp⟩ := Tenant.exists_pushes hk.orderly h
    refine hk.carry (f := f) ⟨hp.cells.mono fun p hp => ?_, fun id hid hout => ?_, hp.still⟩ hp.steps
      trivial
    · exact hp.2.imp_right fun hfound => hfound.mono (List.subset_cons_self _ _)
    · exact hp.roots id hout fun hroot => absurd hid (hchain id hroot)
  | @release chain hchain =>
    rcases chain.release_cases t.store with ⟨hroot, hstore⟩ | ⟨id, hroot, hstore⟩
    · rwa [hstore]
    · have herase : Tenant.Step (d.reserve t.store.heap) t { t with store := chain.release t.store } :=
        hstore ▸ .eraseRoot t (hchain id hroot)
      obtain ⟨f, hf⟩ := herase.exists_transports hk.orderly
      exact hk.carry hf (.single herase) rfl

end Keeps

/-- **Whatever the client does elsewhere**, the structure is kept. -/
theorem keeps_of_run (hrun : Relation.ReflTransGen (Step d) t t') (hk : d.Keeps t) : d.Keeps t' := by
  induction hrun with
  | refl => exact hk
  | tail _ hstep ih => exact ih.step hstep

/-! ## The file in the last cell -/

/-- What a client may do that leaves the last cell and its file to themselves as long as `n` collections
    have succeeded. -/
inductive Ignores (d : Sample) (p : Address) (n : Nat) : Tenant → Tenant → Prop
  /-- Anything that neither writes the cell nor roots or links what leads to it. -/
  | act {t t' : Tenant} :
    Tenant.Step { cells := {q | q = p ∧ t.collections = n}, values := {d.orphan} } t t' →
      (t'.collections = n → t.store.heap.purged.Avoids p t'.store.heap.purged) → Ignores d p n t t'
  | allocate {t : Tenant} {count : Nat} {a : Except HeapError Address} {s' : Store} :
    t.store.allocate count = .ok a s' → Ignores d p n t (t.after count a s')
  | allocateLinked {t : Tenant} {count : Nat} {a : Except HeapError Address} {s' : Store} :
    t.store.allocateLinked count = .ok a s' → Ignores d p n t (t.after count a s')
  | collect {t : Tenant} {a : Except HeapError CollectionSummary} {s' : Store} :
    t.store.collect = .ok a s' → Ignores d p n t { t with store := s' }
  | fill {t : Tenant} {length iteration : Nat} {a : Except RunError Address} {s' : Store} :
    (filledList length iteration).run t.store = .ok a s' → Ignores d p n t (t.after length a s')
  /-- The list does not lead to the cell, and the root of the chain has no owner. -/
  | push {t : Tenant} {chain : RetainedLists} {list : Address} {iteration : Nat}
    {a : Except RunError RetainedLists} {s' : Store} : ¬ t.store.heap.purged.Reaches [list] p →
      (∀ id, chain.root = some id → t.own id ∉ t.leased) →
        (chain.push list iteration).run t.store = .ok a s' → Ignores d p n t (t.pushing chain a s')
  | release (t : Tenant) (chain : RetainedLists) :
    Ignores d p n t { t with store := chain.release t.store }

/-- What becomes of a reference to which nothing leads. -/
structure HidesUntilCollected (p : Address) (v : ValueId) (n : Nat) (t t' : Tenant) : Prop where
  steps : Relation.ReflTransGen (Tenant.Step { values := {v} }) t t'
  hides : t.collections = n → t'.collections = n → t'.Hides p v
  lost : t.collections = n → t'.collections ≠ n →
    t'.store.values.count v < t.store.values.count v

variable {p : Address} {v : ValueId} {n : Nat}

/-- A request that does nothing else. -/
theorem HidesUntilCollected.of_requests (h : t.Requests t') (hf : t.store.Transports f t'.store)
    (hadds : t'.collections = t.collections →
      t.store.heap.purged.AddsApart ∅ t'.store.heap.purged)
    (ht : t.Balanced) (hheld : 0 < t.handles.count v) (hhides : t.collections = n → t.Hides p v) :
    HidesUntilCollected p v n t t' where
  steps := Tenant.steps_mono h.steps (Set.empty_subset _) (Set.empty_subset _) (Set.subset_univ _)
  hides hn hn' := by
    have hsame : t'.collections = t.collections := hn'.trans hn.symm
    obtain rfl := hf.still hsame
    exact (hhides hn).carry hf.cells (Or.inl hsame) ((hadds hsame).avoids nofun)
  lost hn hn' := h.count_lt_of_discarded ht (hhides hn) hheld fun hsame => hn' (hsame.trans hn)

theorem Ignores.hidesUntilCollected (h : d.Ignores p n t t') (hb : t.Balanced) (ht : t.Orderly)
    (hheld : 0 < t.handles.count d.orphan) (hhides : t.collections = n → t.Hides p d.orphan) :
    HidesUntilCollected p d.orphan n t t' := by
  cases h with
  | act h havoids =>
    refine ⟨.single (h.mono (Set.empty_subset _) (Set.empty_subset _) subset_rfl), fun hn hn' => ?_,
      fun hn hn' => ?_⟩
    · exact (hhides hn).carry (.of_unmoved (h.unmoved (hn'.trans hn.symm))) ⟨rfl, hn⟩ (havoids hn')
    · obtain ⟨c, hc, hcar, hm, hyoung, hout⟩ := hhides hn
      exact h.count_lt_of_discarded hb (fun hsame => hn' (hsame.trans hn)) hc hcar hm hyoung hout
  | @allocate count a s' ha =>
    obtain ⟨f, hf, -⟩ := Store.exists_transports_allocate ha
    refine .of_requests ⟨_, ?_, .refl, rfl⟩ hf (Store.addsApart_allocate ha) hb hheld hhides
    cases a <;> exact .allocate ha
  | @allocateLinked count a s' ha =>
    obtain ⟨f, hf, -⟩ := Store.exists_transports_allocateLinked ha
    refine .of_requests ⟨_, ?_, .refl, rfl⟩ hf (Store.addsApart_allocateLinked ha) hb hheld hhides
    cases a <;> exact .allocateLinked ha
  | collect hc =>
    obtain ⟨f, hf⟩ := Store.exists_transports_collect hc
    exact .of_requests ⟨_, .collect hc, .refl, rfl⟩ hf (Store.addsApart_collect hc) hb hheld hhides
  | fill h =>
    obtain ⟨f, hf, -⟩ := exists_transports_filledList h
    exact .of_requests (Tenant.requests_filledList h) hf (addsApart_filledList h) hb hheld hhides
  | @push chain list iteration a s' hlist hchain h =>
    obtain ⟨f, hp⟩ := Tenant.exists_pushes ht h
    refine ⟨Tenant.steps_mono hp.steps (Set.empty_subset _) (Set.empty_subset _) (Set.subset_univ _),
      fun hn hn' => ?_, fun hn hn' => ?_⟩
    · have hsame : (t.pushing chain a s').collections = t.collections := hn'.trans hn.symm
      obtain rfl := hp.still hsame
      refine (hhides hn).carry hp.cells (Or.inl hsame)
        ((Tenant.addsApart_push ht hchain h hsame).avoids fun q hq => ?_)
      rcases hq with rfl | hq
      · exact hlist
      · -- what leads on from a root is reached
        obtain ⟨-, -, -, -, -, hout⟩ := hhides hn
        exact fun hreaches => hout (hreaches.mono (List.cons_subset.2 ⟨hq, List.nil_subset _⟩))
    · have hrooting : Tenant.Step {} t (t.rooting list) := Tenant.step_rooting hp.rooted list
      exact hp.requests.count_lt_of_discarded (hrooting.balanced hb) ((hhides hn).rooting hlist) hheld
        fun hsame => hn' (hsame.trans hn)
  | release chain =>
    rcases chain.release_cases t.store with ⟨-, hstore⟩ | ⟨id, -, hstore⟩
    · rw [hstore]
      exact ⟨.refl, fun hn _ => hhides hn, fun hn hn' => absurd hn hn'⟩
    · rw [hstore]
      refine ⟨.single (.eraseRoot t (Set.notMem_empty id)), fun hn _ => ?_, fun hn hn' => absurd hn hn'⟩
      refine (hhides hn).carry (.of_unmoved (.of_get? fun _ => rfl)) (Set.mem_univ p)
        ⟨fun q hq => Or.inl ?_, fun _ _ => Or.inl⟩
      have hq' : q ∈ (t.roots.erase id).purge.1.addresses := hq
      exact RootRegistry.mem_purge_erase hq'

/-- The client holds one reference to the file in the last cell, where the other one is until the first
    collection that succeeds. -/
structure HoldsOrphan (d : Sample) (p : Address) (n : Nat) (t : Tenant) : Prop where
  balanced : t.Balanced
  orderly : t.Orderly
  held : t.handles.count d.orphan = 1
  least : n ≤ t.collections
  hides : t.collections = n → t.Hides p d.orphan
  count : t.store.values.count d.orphan = if t.collections = n then 2 else 1

theorem HoldsOrphan.step (hw : d.HoldsOrphan p n t) (h : d.Ignores p n t t') : d.HoldsOrphan p n t' := by
  have hpos : 0 < t.handles.count d.orphan := by
    rw [hw.held]
    exact Nat.one_pos
  have hhidden := h.hidesUntilCollected hw.balanced hw.orderly hpos hw.hides
  have hbalanced := Tenant.balanced_of_steps hhidden.steps hw.balanced
  have hmore := (Tenant.unmoved_of_steps hhidden.steps).1
  obtain ⟨hle, hhandles⟩ :=
    Tenant.count_le_of_steps hhidden.steps hw.balanced (Set.mem_singleton _) hpos
  have hheld : t'.handles.count d.orphan = 1 := hhandles.trans hw.held
  have hleast := hw.least
  have hback : t'.collections = n → t.collections = n := fun hn' => by omega
  refine ⟨hbalanced, Tenant.orderly_of_steps hhidden.steps hw.orderly, hheld, hleast.trans hmore,
    fun hn' => hhidden.hides (hback hn') hn', ?_⟩
  have hcount := hw.count
  by_cases hn' : t'.collections = n
  · -- the cell has its reference
    obtain ⟨c, hc, hcar, -⟩ := hhidden.hides (hback hn') hn'
    have htwo := hbalanced.two_le_count (by omega) hc hcar
    rw [if_pos (hback hn')] at hcount
    rw [if_pos hn']
    omega
  · have hone := hbalanced.count_eq d.orphan
    rw [if_neg hn']
    by_cases hn : t.collections = n
    · have hlost := hhidden.lost hn hn'
      rw [if_pos hn] at hcount
      omega
    · rw [if_neg hn] at hcount
      omega

theorem holdsOrphan_of_run (hrun : Relation.ReflTransGen (d.Ignores p n) t t')
    (hw : d.HoldsOrphan p n t) : d.HoldsOrphan p n t' := by
  induction hrun with
  | refl => exact hw
  | tail _ hstep ih => exact ih.step hstep

/-! ## The structure as it was made -/

variable {a b b₁ c c₁ c₂ : Address}

theorem Built.laid (h : d.Built t s' a b b₁ c c₁ c₂) : d.Laid s'.heap [a, b, b₁, c, c₁] := by
  have hget : ∀ e ∈ [(d.fourth, c), (d.second, b), (d.head, a)], s'.heap.roots.get? e.1 = some e.2 :=
    fun e he => (h.roots e he).1
  have hhead : d.head? s'.heap = some a := hget (d.head, a) (by simp)
  have hcell : ∀ e ∈ d.known a b b₁ c c₁ c₂, e.In s'.heap := h.known.cell
  simp only [Sample.known, List.forall_mem_cons] at hcell
  obtain ⟨⟨x₀, hx₀, hm₀, hcar₀, hcdr₀⟩, ⟨x₁, hx₁, hm₁, hcar₁, hcdr₁⟩, ⟨x₂, hx₂, hm₂, hcar₂, hcdr₂⟩,
    ⟨x₃, hx₃, hm₃, hcar₃, hcdr₃⟩, ⟨x₄, hx₄, hm₄, hcar₄, hcdr₄⟩, -⟩ := hcell
  refine ⟨?_, ?_, hget (d.second, b) (by simp), hget (d.fourth, c) (by simp)⟩
  · rw [hhead]
    refine ⟨rfl, x₀, hx₀, hm₀, ?_⟩
    rw [hcdr₀]
    refine ⟨rfl, x₁, hx₁, hm₁, ?_⟩
    rw [hcdr₁]
    refine ⟨rfl, x₂, hx₂, hm₂, ?_⟩
    rw [hcdr₂]
    refine ⟨rfl, x₃, hx₃, hm₃, ?_⟩
    rw [hcdr₃]
    refine ⟨rfl, x₄, hx₄, hm₄, ?_⟩
    rw [hcdr₄]
    rfl
  · exact .cons ⟨x₀, hx₀, hcar₀⟩ (.cons ⟨x₁, hx₁, hcar₁⟩ (.cons ⟨x₂, hx₂, hcar₂⟩
      (.cons ⟨x₃, hx₃, hcar₃⟩ (.cons ⟨x₄, hx₄, hcar₄⟩ .nil))))

theorem Built.keeps (h : d.Built t s' a b b₁ c c₁ c₂) (hb : t.Balanced) (ht : t.Orderly) :
    d.Keeps (t.building d s') where
  orderly := Tenant.orderly_of_steps h.steps ht
  balanced := Tenant.balanced_of_steps h.steps hb
  laid := ⟨_, h.laid⟩
  plain id hid := by
    rw [Tenant.own_of_steps h.steps]
    rcases hid with rfl | rfl | rfl
    · exact ⟨by simp [Tenant.building], (h.roots (d.head, a) (by simp)).2⟩
    · exact ⟨by simp [Tenant.building], (h.roots (d.second, b) (by simp)).2⟩
    · exact ⟨by simp [Tenant.building], (h.roots (d.fourth, c) (by simp)).2⟩
  held := by
    rw [h.linked.2]
    exact Nat.one_pos
  count := h.linked.1.le

theorem Built.holdsOrphan (h : d.Built t s' a b b₁ c c₁ c₂) (hb : t.Balanced) (ht : t.Orderly) :
    d.HoldsOrphan c₂ (t.building d s').collections (t.building d s') where
  balanced := Tenant.balanced_of_steps h.steps hb
  orderly := Tenant.orderly_of_steps h.steps ht
  held := h.orphan.2
  least := Nat.le_refl _
  hides _ := by
    obtain ⟨x, hx, hm, hcar, -⟩ := h.known.cell ⟨c₂, .value d.orphan, .empty⟩ (by simp [Sample.known])
    exact ⟨x, hx, hcar, hm, h.young, h.hidden⟩
  count := by
    rw [if_pos rfl]
    exact h.orphan.1

/-- **The sample structure is kept**, whatever a client has done since it made its first heap, as long
    as what its roots reach is in order when it asks for the structure. -/
theorem sample_kept {t₀ t : Tenant} (h₀ : t₀.Fresh) (hbefore : Tenant.History t₀ t)
    (hrootedClean : t.store.heap.purged.RootedClean) {symbols symbols' : SymbolTable} {d : Sample}
    {s' : Store}
    (hbuild : build symbols t.store = .ok (symbols', .ok d) s') :
    -- it is found intact at once and after all that leaves it alone
    (∀ t', Relation.ReflTransGen d.Step (t.building d s') t' → d.verify t'.store = .intact) ∧
      -- the other file is in a cell to which nothing leads, until the first collection that succeeds
      ∃ p, (t.building d s').Hides p d.orphan ∧
        ∀ t', Relation.ReflTransGen (d.Ignores p (t.building d s').collections) (t.building d s') t' →
          t'.store.values.count d.orphan =
            if t'.collections = (t.building d s').collections then 2 else 1 := by
  obtain ⟨hb, ht⟩ := hbefore.orderly h₀.balanced h₀.orderly
  obtain ⟨a, b, b₁, c, c₁, c₂, hbuilt⟩ := exists_built hb ht hrootedClean hbuild
  have hkeeps := hbuilt.keeps hb ht
  have hholds := hbuilt.holdsOrphan hb ht
  refine ⟨fun t' hrun => (keeps_of_run hrun hkeeps).verify, c₂, hholds.hides rfl, fun t' hrun => ?_⟩
  exact (holdsOrphan_of_run hrun hholds).count

/-- A client whose heap has room for the first two allocations, but not for the third. -/
def crammed : Tenant where
  store :=
    { heap :=
        { settings := Settings.standard.withYoungCapacity 8
          active := #[.blank, .blank, .blank, .blank] } }
  allocated := 4

/-- One collection moves the first cells before the structure is made, and another one all of them. -/
theorem sample_kept_crammed : ∃ (t₀ t' : Tenant) (symbols : SymbolTable) (d : Sample) (s' : Store),
    t₀.Fresh ∧ Tenant.History t₀ crammed ∧ crammed.store.heap.purged.RootedClean ∧
      build .empty crammed.store = .ok (symbols, .ok d) s' ∧
      s'.heap.counters.youngCollections = 1 ∧ d.verify s' = .intact ∧ s'.values.count d.orphan = 2 ∧
      t'.collections = 2 ∧ d.verify t'.store = .intact ∧ t'.store.values.count d.orphan = 1 := by
  have h₀ : Tenant.Fresh { store := { heap := .make crammed.store.heap.settings 0 } } :=
    ⟨crammed.store.heap.settings, 0, _, rfl, rfl⟩
  have hblock : Tenant.Step {} { store := { heap := .make crammed.store.heap.settings 0 } } crammed :=
    .allocate (show Store.allocate 4 _ = .ok (.ok ⟨.young 0, 0⟩) _ from rfl)
  have hbefore : Tenant.History _ crammed := .single (Or.inl (Or.inl hblock))
  have hrootedClean : crammed.store.heap.purged.RootedClean := by
    have hnone : crammed.store.heap.purged.roots.addresses = [] := rfl
    refine (Heap.rootedClean_of_closed (W := ∅) (fun p hp => ?_) fun p hp => hp.elim).1
    rw [hnone] at hp
    cases hp
  have hchecks : Action.passes (build .empty) (fun r s => Action.accepts
      (fun _ => s.heap.counters.youngCollections == 1 &&
        Action.passes Store.collect (fun _ s => s.heap.counters.youngCollections == 2) s) r.2)
      crammed.store = true := by
    simp only [build, assemble, rooted, share, Store.allocate, Store.makeRoom, Action.get_eq,
      Action.modify_eq, Attempt.get_eq]
    cbv
  obtain ⟨⟨symbols, r⟩, s, hbuild, hchecks⟩ := Action.exists_of_passes hchecks
  obtain ⟨d, rfl, hchecks⟩ := Action.exists_of_accepts hchecks
  obtain ⟨hone, hchecks⟩ := Bool.and_eq_true_iff.1 hchecks
  obtain ⟨a, s', hc, htwo⟩ := Action.exists_of_passes hchecks
  obtain ⟨hverify, p, -, hcount⟩ := sample_kept h₀ hbefore hrootedClean hbuild
  have hone : s.heap.counters.youngCollections = 1 := beq_iff_eq.1 hone
  have htwo : s'.heap.counters.youngCollections = 2 := beq_iff_eq.1 htwo
  refine ⟨_, { crammed.building d s with store := s' }, symbols, d, s, h₀, hbefore, hrootedClean, hbuild,
    hone, hverify _ .refl, ?_, htwo, hverify _ (.single (.act (.collect hc))), ?_⟩
  · exact (hcount _ .refl).trans (if_pos rfl)
  · refine (hcount _ (.single (.collect hc))).trans (if_neg fun hsame => ?_)
    cases htwo.symm.trans (hsame.trans hone)

end Sample

end Tenure
