/-
  Tenure — new cells, and lists in them.

  * `exists_transports_allocate`, `exists_transports_allocateLinked`: a request for a block
    transports the cells that are there, and none of them into the block.
  * `leads_linked`: the cells of a linked block make a list.
  * `Step.write`: writing a slot is an operation of a client.
  * `WritesCars`: numbers come into the cars of cells; `fillCells_cases`: writing the numbers of a list
    does this.
  * `filledList_cases`: what allocating a filled list comes to.
  * `Tenant.Requests`: a request for a block and what follows on it; `requests_filledList`.
-/
import Tenure.Proofs.SpineLists

namespace Tenure

/-! ## Blocks -/

theorem Address.nodup_block {p : Address} {count : Nat} {block : List Address}
    (hb : p.block count = .ok block) : block.Nodup := by
  obtain ⟨-, hget⟩ := getElem?_block hb
  rw [List.nodup_iff_getElem?_ne_getElem?]
  intro i j hij hj heq
  obtain ⟨-, hpos⟩ := hget j _ (List.getElem?_eq_getElem hj)
  obtain ⟨-, hpos'⟩ := hget i _ (heq.trans (List.getElem?_eq_getElem hj))
  omega

theorem Address.head?_block {p : Address} {count : Nat} {block : List Address} (hcount : 0 < count)
    (hb : p.block count = .ok block) : block.head? = some p := by
  obtain ⟨hlength, hget⟩ := getElem?_block hb
  rw [List.head?_eq_getElem?]
  have hfirst := List.getElem?_eq_getElem (l := block) (i := 0) (by omega)
  obtain ⟨hspace, hpos⟩ := hget 0 _ hfirst
  rw [hfirst, Address.ext_position hspace hpos]

theorem Address.getElem?_of_offset {p q : Address} {count k : Nat} {block : List Address}
    (hb : p.block count = .ok block) (hk : k < count) (hq : p.offset k = .ok q) :
    block[k]? = some q := by
  have hlt : k < block.length := by
    rw [(getElem?_block hb).1]
    exact hk
  have hcell := List.getElem?_eq_getElem hlt
  rw [hcell, ← Except.ok.inj ((offset_of_block hb hcell).symm.trans hq)]

theorem Address.block_one {p : Address} {block : List Address} (hb : p.block 1 = .ok block) :
    block = [p] := by
  obtain ⟨x, rfl⟩ := List.length_eq_one_iff.1 (getElem?_block hb).1
  rw [Option.some.inj (head?_block Nat.one_pos hb)]

theorem Address.block_two {p q : Address} {block : List Address} (hb : p.block 2 = .ok block)
    (hq : p.offset 1 = .ok q) : block = [p, q] := by
  obtain ⟨x, y, rfl⟩ := List.length_eq_two.1 (getElem?_block hb).1
  rw [Option.some.inj (head?_block Nat.two_pos hb),
    Option.some.inj (getElem?_of_offset hb (k := 1) (by decide) hq)]

theorem Address.block_three {p q r : Address} {block : List Address} (hb : p.block 3 = .ok block)
    (hq : p.offset 1 = .ok q) (hr : p.offset 2 = .ok r) : block = [p, q, r] := by
  obtain ⟨x, y, z, rfl⟩ := List.length_eq_three.1 (getElem?_block hb).1
  rw [Option.some.inj (head?_block (by decide) hb),
    Option.some.inj (getElem?_of_offset hb (k := 1) (by decide) hq),
    Option.some.inj (getElem?_of_offset hb (k := 2) (by decide) hr)]

namespace Heap

variable {h : Heap} {block : List Address}

/-- **Linking blank cells** makes a list of them. -/
theorem leads_linked (hnodup : block.Nodup) (hblank : ∀ p ∈ block, h.get? p = some .blank) :
    (h.link block).Leads block.head? block ∧
      ∀ p ∈ block, ∃ c, (h.link block).get? p = some c ∧ c.car = .empty := by
  fun_induction Heap.link h block with
  | case1 h p q rest ih =>
    obtain ⟨hp, hrest⟩ := List.nodup_cons.1 hnodup
    have hcell : h.get? p = some .blank := hblank p List.mem_cons_self
    have hmodify : (h.modify p fun c => c.store .cdr (.ref q)) = h.put p { cdr := .ref q } := by
      rw [modify, hcell]
      rfl
    obtain ⟨hleads, hcars⟩ := ih hrest fun r hr => by
      have hne : r ≠ p := fun heq => hp (heq ▸ hr)
      rw [hmodify, get?_put_of_ne hne]
      exact hblank r (List.mem_cons_of_mem _ hr)
    have hlinked : ((h.modify p fun c => c.store .cdr (.ref q)).link (q :: rest)).get? p =
        some { cdr := .ref q } := by
      rw [get?_link_of_not_mem hp, hmodify, get?_put_self hcell]
    refine ⟨⟨rfl, _, hlinked, rfl, hleads⟩, fun r hr => ?_⟩
    rcases List.mem_cons.1 hr with rfl | hr
    · exact ⟨_, hlinked, rfl⟩
    · exact hcars r hr
  | case2 block h hblock =>
    rcases block with _ | ⟨p, _ | ⟨q, rest⟩⟩
    · exact ⟨rfl, fun _ hp => absurd hp List.not_mem_nil⟩
    · have hcell := hblank p (List.mem_singleton_self p)
      refine ⟨⟨rfl, _, hcell, rfl, rfl⟩, fun q hq => ?_⟩
      obtain rfl := List.mem_singleton.1 hq
      exact ⟨_, hcell, rfl⟩
    · exact absurd rfl (hblock p q rest)

end Heap

namespace Store

variable {s s' t : Store} {f : Address → Address} {count : Nat} {a : Except HeapError Address}

/-- None of the cells that are there comes into the block. -/
theorem Transports.apart (hf : s.Transports f t) (hg : s.BlockAnswer t count a s') {q : Address}
    {block : List Address} (ha : a = .ok q) (hb : q.block count = .ok block) {p : Address}
    (hp : p ∈ s.lasting s') (hcontains : s.heap.contains p) : f p ∉ block := by
  intro hmem
  obtain ⟨c, hc⟩ := Heap.contains_iff.1 hcontains
  have hp' : p ∈ s.lasting t := by
    rwa [lasting, hg.counters] at hp
  obtain ⟨d, hd, -⟩ := hf.cells p hp' c hc
  exact hg.new q block ha hb _ hmem (Heap.contains_iff.2 ⟨d, hd⟩)

theorem exists_transports_allocate (ha : s.allocate count = .ok a s') :
    ∃ f, s.Transports f s' ∧ ∀ q block, a = .ok q → q.block count = .ok block →
      ∀ p ∈ s.lasting s', s.heap.contains p → f p ∉ block := by
  obtain ⟨t, ht⟩ := exists_blockAnswer_allocate ha
  obtain ⟨f, hf⟩ := exists_transports_tidied ht.tidied
  exact ⟨f, hf.blockAnswer ht, fun q block hq hb p => hf.apart ht hq hb⟩

theorem exists_transports_allocateLinked (ha : s.allocateLinked count = .ok a s') :
    ∃ f, s.Transports f s' ∧ ∀ q block, a = .ok q → q.block count = .ok block →
      ∀ p ∈ s.lasting s', s.heap.contains p → f p ∉ block := by
  obtain ⟨t, ht⟩ := exists_blockAnswer_allocateLinked ha
  obtain ⟨f, hf⟩ := exists_transports_tidied ht.tidied
  exact ⟨f, hf.blockAnswer ht, fun q block hq hb p => hf.apart ht hq hb⟩

end Store

/-! ## Writing -/

namespace Heap

variable {h h' h'' : Heap} {ps : List Address} {p : Address} {start : Option Address}

/-- Only the cars of some cells differ. -/
structure WritesCars (ps : List Address) (h h' : Heap) : Prop where
  roots : h'.roots = h.roots
  counters : h'.counters = h.counters
  contains : ∀ {p}, h'.contains p → h.contains p
  cell : ∀ p c, h.get? p = some c →
    ∃ d, h'.get? p = some d ∧ d.cdr = c.cdr ∧ (d.isMarked → c.isMarked) ∧ (p ∉ ps → d.car = c.car)

theorem WritesCars.refl (h : Heap) (ps : List Address) : WritesCars ps h h :=
  ⟨rfl, rfl, fun hp => hp, fun _ c hc => ⟨c, hc, rfl, fun hm => hm, fun _ => rfl⟩⟩

theorem WritesCars.cons {c : Cell} {payload : Slot} (hc : h.get? p = some c)
    (hf : WritesCars ps (h.put p (c.store .car payload)) h') : WritesCars (p :: ps) h h' where
  roots := hf.roots.trans (roots_put _ _ _)
  counters := hf.counters.trans (counters_put _ _ _)
  contains hq := by
    obtain ⟨d, hd⟩ := contains_iff.1 (hf.contains hq)
    rename_i q
    by_cases hqp : q = p
    · subst hqp
      exact contains_iff.2 ⟨c, hc⟩
    · exact contains_iff.2 ⟨d, (get?_put_of_ne hqp _).symm.trans hd⟩
  cell q c' hc' := by
    by_cases hq : q = p
    · subst hq
      obtain rfl : c = c' := Option.some.inj (hc.symm.trans hc')
      obtain ⟨d, hd, hcdr, hm, -⟩ := hf.cell q _ (get?_put_self hc _)
      exact ⟨d, hd, hcdr, hm, fun hmem => absurd List.mem_cons_self hmem⟩
    · obtain ⟨d, hd, hcdr, hm, hcar⟩ := hf.cell q c' ((get?_put_of_ne hq _).trans hc')
      exact ⟨d, hd, hcdr, hm, fun hmem => hcar fun hmem' => hmem (List.mem_cons_of_mem _ hmem')⟩

/-- Lists are where they were. -/
theorem Leads.writesCars {qs : List Address} (hl : h.Leads start qs) (hf : WritesCars ps h h') :
    h'.Leads start qs := by
  induction qs generalizing start with
  | nil => exact hl
  | cons q qs ih =>
    obtain ⟨rfl, c, hc, hm, hrest⟩ := hl
    obtain ⟨d, hd, hcdr, hdc, -⟩ := hf.cell q c hc
    exact ⟨rfl, d, hd, Transports.unmarked hm hdc, hcdr ▸ ih hrest⟩

theorem WritesCars.transports (hf : WritesCars ps h h') : h.Transports {p | p ∉ ps} id h' := by
  refine .of_unmoved fun p c hc => ?_
  obtain ⟨d, hd, hcdr, hm, hcar⟩ := hf.cell p c hc
  exact ⟨d, hd, fun hp => ⟨hcar hp, hcdr, hm⟩⟩

/-- No addresses come with the numbers. -/
theorem WritesCars.refersTo {q r : Address} {length iteration position : Nat} (hf : WritesCars ps h h')
    (hn : h'.Fills length iteration position ps) (hr : h'.RefersTo q r) : h.RefersTo q r := by
  obtain ⟨d, hd, hr⟩ := hr
  obtain ⟨c, hc⟩ := contains_iff.1 (hf.contains (contains_iff.2 ⟨d, hd⟩))
  obtain ⟨d', hd', hcdr, -, hcar⟩ := hf.cell q c hc
  obtain rfl : d = d' := Option.some.inj (hd.symm.trans hd')
  refine ⟨c, hc, ?_⟩
  rw [Cell.references, hcdr] at hr
  rcases List.mem_append.1 hr with hr | hr
  · by_cases hq : q ∈ ps
    · obtain ⟨e, x, he, hx⟩ := hn.exists_int hq
      obtain rfl : d = e := Option.some.inj (hd.symm.trans he)
      rw [hx] at hr
      cases hr
    · rw [hcar hq] at hr
      exact List.mem_append_left _ hr
  · exact List.mem_append_right _ hr

end Heap

theorem Store.write_eq {s s' : Store} {p : Address} {half : Half} {payload : Slot} {c : Cell}
    (hc : s.heap.get? p = some c) (hslot : (c.slot half).value? = none)
    (hw : s.write p half payload = .ok () s') : s' = s.mapHeap (·.put p (c.store half payload)) := by
  unfold Store.write at hw
  rw [hc] at hw
  cases hw
  rw [Store.releaseSlot, hslot]

namespace Tenant

variable {r : Reserve} {t : Tenant} {s' : Store} {p : Address}

/-- **Writing a slot** where no values are involved. -/
theorem Step.write {half : Half} {payload : Slot} {c : Cell} (hp : p ∉ r.cells)
    (hc : t.store.heap.get? p = some c) (hslot : (c.slot half).value? = none)
    (hpayload : payload.value? = none) (hw : t.store.write p half payload = .ok () s') :
    s' = t.store.mapHeap (·.put p (c.store half payload)) ∧ Step r t { t with store := s' } := by
  have hs' := Store.write_eq hc hslot hw
  have hvalues : (c.store half payload).values = c.values := by
    cases half with
    | car => simp only [Cell.store, Cell.setSlot, Cell.values, Slot.store_eq, hpayload,
        show c.car.value? = none from hslot]
    | cdr => simp only [Cell.store, Cell.setSlot, Cell.values, Slot.store_eq, hpayload,
        show c.cdr.value? = none from hslot]
  refine ⟨hs', hs' ▸ .put hp hc (fun hm => ?_) ?_ fun _ _ => rfl⟩
  · rwa [Cell.isMarked_store] at hm
  · rw [hvalues]

variable {length iteration position : Nat}

/-- Writing the numbers of a list into cells with empty cars. -/
theorem fillCells_cases {ps : List Address} (hnodup : ps.Nodup)
    (hps : ∀ p ∈ ps, p ∉ r.cells ∧ ∃ c, t.store.heap.get? p = some c ∧ c.car = .empty)
    (hfill : fillCells length iteration position ps t.store = .ok () s') :
    Relation.ReflTransGen (Step r) t { t with store := s' } ∧
      Heap.WritesCars ps t.store.heap s'.heap ∧ s'.heap.Fills length iteration position ps := by
  induction ps generalizing t position with
  | nil =>
    cases hfill
    exact ⟨.refl, .refl _ _, trivial⟩
  | cons p ps ih =>
    obtain ⟨hp, hrest⟩ := List.nodup_cons.1 hnodup
    obtain ⟨hout, c, hc, hcar⟩ := hps p List.mem_cons_self
    rw [fillCells] at hfill
    obtain ⟨x, s₁, hx, hfill⟩ := Action.bind_eq_ok_iff.1 hfill
    obtain ⟨helement, rfl⟩ := Action.lift_eq_ok_iff.1 hx
    obtain ⟨_, s₂, hw, hfill⟩ := Action.bind_eq_ok_iff.1 hfill
    have hempty : (c.slot .car).value? = none := by
      show c.car.value? = none
      rw [hcar]
      rfl
    obtain ⟨hs₂, hstep⟩ := Step.write hout hc hempty rfl hw
    have hcells : ∀ q ∈ ps, q ∉ r.cells ∧ ∃ c, s₂.heap.get? q = some c ∧ c.car = .empty := by
      intro q hq
      obtain ⟨hout, c', hc', hcar'⟩ := hps q (List.mem_cons_of_mem _ hq)
      have hne : q ≠ p := fun heq => hp (heq ▸ hq)
      exact ⟨hout, c', by rw [hs₂]; exact (Heap.get?_put_of_ne hne _).trans hc', hcar'⟩
    obtain ⟨hsteps, hwritten, hfills⟩ := ih (t := { t with store := s₂ }) hrest hcells hfill
    subst hs₂
    obtain ⟨d, hd, -, -, hsame⟩ := hwritten.cell p _ (Heap.get?_put_self hc _)
    refine ⟨hsteps.head hstep, hwritten.cons hc, ⟨d, x, hd, helement, ?_⟩, hfills⟩
    rw [hsame hp, Cell.store, Cell.setSlot, Slot.store_eq]

/-- The client after a call that has answered and taken some cells for itself if it was no error. -/
def after {ε α : Type} (t : Tenant) (count : Nat) (a : Except ε α) (s' : Store) : Tenant where
  store := s'
  handles := t.handles
  leases := t.leases
  issued := t.issued
  leased := t.leased
  allocated := t.allocated +
    match a with
    | .ok _ => count
    | .error _ => 0

end Tenant

theorem filledList_cases {s s' : Store} {length iteration : Nat} {a : Except RunError Address}
    (h : (filledList length iteration).run s = .ok a s') :
    (∃ error, s.allocateLinked length = .ok (.error error) s' ∧ a = .error (.heap error)) ∨
      ∃ p t block, s.allocateLinked length = .ok (.ok p) t ∧ p.block length = .ok block ∧
        fillCells length iteration 0 block t = .ok () s' ∧ a = .ok p := by
  rcases Attempt.ofHeap_bind_eq_ok h with ⟨p, t, ha, h⟩ | ⟨error, ha, rfl⟩
  · obtain ⟨block, hb, h⟩ := Attempt.fits_bind_eq_ok h
    obtain ⟨_, u, hfill, h⟩ := Attempt.lift_bind_eq_ok h
    cases h
    exact Or.inr ⟨p, t, block, ha, hb, hfill, rfl⟩
  · exact Or.inl ⟨error, ha, rfl⟩

/-- The cells of a new linked block make a list, and their cars are empty. -/
theorem Store.leads_of_allocateLinked {s s' : Store} {count : Nat} {p : Address} {block : List Address}
    (ha : s.allocateLinked count = .ok (.ok p) s') (hb : p.block count = .ok block) :
    s'.heap.Leads (some p) block ∧ ∀ q ∈ block, ∃ c, s'.heap.get? q = some c ∧ c.car = .empty := by
  obtain ⟨a₀, t, ha₀, ⟨_, -, he, -⟩ | ⟨p', block', rfl, hp, hb', rfl⟩⟩ := allocateLinked_cases ha
  · cases he
  cases hp
  cases hb.symm.trans hb'
  rw [← Address.head?_block (pos_of_allocate ha₀) hb]
  exact Heap.leads_linked (Address.nodup_block hb) fun q hq => blank_of_allocate ha₀ hb hq

/-- **Allocating a filled list**: the cells that are there are found again, and there is one
    more list. -/
theorem exists_transports_filledList {s s' : Store} {length iteration : Nat} {a : Except RunError Address}
    (h : (filledList length iteration).run s = .ok a s') :
    ∃ f, s.Transports f s' ∧ ∀ p, a = .ok p → s'.heap.Filled length iteration p := by
  rcases filledList_cases h with ⟨error, ha, rfl⟩ | ⟨p, t, block, ha, hb, hfill, rfl⟩
  · obtain ⟨f, hf, -⟩ := Store.exists_transports_allocateLinked ha
    exact ⟨f, hf, nofun⟩
  · obtain ⟨f, hf, hapart⟩ := Store.exists_transports_allocateLinked ha
    obtain ⟨hleads, hcars⟩ := Store.leads_of_allocateLinked ha hb
    obtain ⟨-, hwritten, hfills⟩ := Tenant.fillCells_cases (r := {}) (t := { store := t })
      (Address.nodup_block hb) (fun q hq => ⟨fun hmem => hmem, hcars q hq⟩) hfill
    have hlasting : s.lasting s' = s.lasting t := by rw [Store.lasting, hwritten.counters, Store.lasting]
    refine ⟨f, ⟨?_, hlasting ▸ hf.injective, fun id q hreleased hleases hq => ?_, fun q hq => ?_,
      fun hsame => ?_⟩, fun q hq => ?_⟩
    · rw [hlasting]
      exact hf.cells.trans hwritten.transports fun q hq hcontains => hapart p block rfl hb q hq hcontains
    · rw [hwritten.roots]
      exact hf.roots id q hreleased hleases hq
    · rw [show s'.heap.purged.roots = t.heap.purged.roots from
        congrArg (·.purge.1) hwritten.roots] at hq
      exact hf.origin q hq
    · rw [hwritten.counters] at hsame
      exact hf.still hsame
    · cases hq
      exact ⟨block, hleads.writesCars hwritten, (Address.getElem?_block hb).1, hfills⟩

namespace Tenant

/-- A request for a block and what follows on it, without a further collection that succeeds.  The values
    are left alone. -/
def Requests (t t' : Tenant) : Prop :=
  ∃ u, Step { values := Set.univ } t u ∧
    Relation.ReflTransGen (Step { values := Set.univ }) u t' ∧ t'.collections = u.collections

theorem Requests.steps {t t' : Tenant} (h : t.Requests t') :
    Relation.ReflTransGen (Step { values := Set.univ }) t t' := by
  obtain ⟨u, hstep, hrest, -⟩ := h
  exact hrest.head hstep

theorem Requests.trans {t t' t'' : Tenant} (h : t.Requests t')
    (hsteps : Relation.ReflTransGen (Step { values := Set.univ }) t' t'')
    (hsame : t''.collections = t'.collections) : t.Requests t'' := by
  obtain ⟨u, hstep, hrest, hsame'⟩ := h
  exact ⟨u, hstep, hrest.trans hsteps, hsame.trans hsame'⟩

theorem requests_filledList {t : Tenant} {s' : Store} {length iteration : Nat}
    {a : Except RunError Address} (h : (filledList length iteration).run t.store = .ok a s') :
    t.Requests (t.after length a s') := by
  rcases filledList_cases h with ⟨error, ha, rfl⟩ | ⟨p, u, block, ha, hb, hfill, rfl⟩
  · exact ⟨_, .allocateLinked ha, .refl, rfl⟩
  · obtain ⟨-, hcars⟩ := Store.leads_of_allocateLinked ha hb
    obtain ⟨hsteps, hwritten, -⟩ := fillCells_cases (r := { values := Set.univ })
      (t := { t with store := u, allocated := t.allocated + granted length (.ok p) })
      (Address.nodup_block hb) (fun q hq => ⟨fun hmem => hmem, hcars q hq⟩) hfill
    exact ⟨_, .allocateLinked ha, hsteps, congrArg Counters.youngCollections hwritten.counters⟩

end Tenant

end Tenure
