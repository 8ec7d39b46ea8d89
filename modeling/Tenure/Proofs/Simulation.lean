/-
  Tenure — stores that mirror an ideal heap.

  A client that leaves flags alone and leases no roots works with tame stores.  What
  it asks of a tame store that mirrors an ideal heap, with pointers that stand for
  cells of that heap, is answered, and leaves a tame store that mirrors what the ideal
  heap is then.

  * `Tame`: the stores of such clients.
  * `Follows`: what the answer of an operation leaves.
  * `mirrors_collect`, `follows_allocate`, `follows_perform`: collections and allocations,
    and all operations.
  * `Tame.answers_perform`: only a counter that runs over keeps an operation from an answer.
-/
import Tenure.Proofs.Mirrors
import Tenure.Proofs.Preservation
import Tenure.Proofs.RefusedCollections
import Tenure.Proofs.Session

namespace Tenure

theorem RootRegistry.without_nil (roots : RootRegistry) : roots.without [] = roots := by
  have hall : ∀ e ∈ roots.entries, decide (e.1 ∉ []) = true := by simp
  rw [without, List.filter_eq_self.2 hall]

theorem Heap.purged_eq {h : Heap} (hr : h.roots.released = []) : h.purged = h := by
  have hroots : h.roots.purge.1 = h.roots := by
    rw [RootRegistry.purge_eq, hr, RootRegistry.without_nil, ← hr]
  rw [purged, mapRoots, hroots]

/-! ## Flags -/

@[simp] theorem Cell.isMarked_store (c : Cell) (half : Half) (s : Slot) :
    (c.store half s).isMarked = c.isMarked := by
  cases half <;> rfl

theorem Heap.clean_make (settings : Settings) (registry : Nat) : (Heap.make settings registry).Clean :=
  ⟨fun _ hc => absurd hc (Array.not_mem_empty _), fun _ hc => absurd hc (Array.not_mem_empty _)⟩

namespace Heap.Clean

variable {h : Heap}

theorem put (hh : h.Clean) (p : Address) {c : Cell} (hc : c.isMarked = false) : (h.put p c).Clean := by
  have key : ∀ {cells : Array Cell} {k : Nat}, (∀ d ∈ cells, d.isMarked = false) →
      ∀ d ∈ cells.setIfInBounds k c, d.isMarked = false := by
    intro cells k hcells d hd
    rcases Array.mem_or_eq_of_mem_setIfInBounds hd with hd | rfl
    · exact hcells d hd
    · exact hc
  unfold Heap.put
  split
  · split
    · exact ⟨key hh.1, hh.2⟩
    · exact hh
  · exact ⟨hh.1, key hh.2⟩

theorem link (hh : h.Clean) (block : List Address) : (h.link block).Clean := by
  fun_induction Heap.link h block with
  | case1 h p q rest ih =>
    refine ih ?_
    unfold Heap.modify
    split
    · rename_i c hc
      exact hh.put p (by rw [Cell.isMarked_store, hh.isMarked hc])
    · exact hh
  | case2 h block => exact hh

theorem grow (hh : h.Clean) (count : Nat) :
    Clean { h with active := h.active ++ Array.replicate count .blank } := by
  refine ⟨fun c hc => ?_, hh.2⟩
  rcases Array.mem_append.1 hc with hc | hc
  · exact hh.1 c hc
  · rw [(Array.mem_replicate.1 hc).2]
    rfl

end Heap.Clean

/-- What no write to a cell changes, linking a block does not change either. -/
theorem Heap.congr_link {α : Type} {f : Heap → α} (hf : ∀ h p c, f (put h p c) = f h) (h : Heap)
    (block : List Address) : f (h.link block) = f h := by
  fun_induction Heap.link h block with
  | case1 h p q rest ih =>
    rw [ih]
    unfold Heap.modify
    split
    · exact hf h p _
    · rfl
  | case2 h block => rfl

namespace Store

/-- A store whose client leaves the flags of cells alone and leases no root. -/
structure Tame (s : Store) : Prop where
  wellFormed : s.heap.WellFormed
  clean : s.heap.Clean
  released : s.heap.roots.released = []
  unleased : ∀ id, ¬ s.values.Leases ⟨s.heap.roots.registry, id⟩

/-- What stood for something still does, unless cells were moved in between. -/
def Outlives (s s' : Store) (R R' : Address → Nat → Prop) : Prop :=
  s'.heap.counters.youngCollections = s.heap.counters.youngCollections → ∀ p n, R p n → R' p n

/-- The answer of an operation, which takes the ideal heap `i` to `i'`: an error leaves a mirror of
    the first, and success one of the second. -/
structure Follows (s : Store) (R : Address → Nat → Prop) (i : Ideal) {α : Type}
    (r : Except HeapError α) (s' : Store) (i' : Ideal)
    (good : (Address → Nat → Prop) → α → Prop) : Prop where
  tame : s'.Tame
  error : ∀ error, r = .error error → ∃ R', Mirrors R' s'.heap i ∧ s.Outlives s' R R'
  ok : ∀ a, r = .ok a → ∃ R', Mirrors R' s'.heap i' ∧ s.Outlives s' R R' ∧ good R' a

variable {s s' : Store} {R : Address → Nat → Prop} {i i' : Ideal}

/-- An operation that cannot be refused and moves no cells. -/
theorem Follows.of_same {α : Type} {a : α} {good : (Address → Nat → Prop) → α → Prop}
    (ht : s'.Tame) (hm : Mirrors R s'.heap i') (hgood : good R a) :
    Follows s R i (.ok a) s' i' good where
  tame := ht
  error _ he := by cases he
  ok b hb := by
    cases hb
    exact ⟨R, hm, fun _ _ _ h => h, hgood⟩

/-- Giving up references does nothing to a heap of which no value owns a root. -/
theorem GivesUp.heap_eq (h : s.GivesUp s')
    (hs : ∀ id, ¬ s.values.Leases ⟨s.heap.roots.registry, id⟩) : s'.heap = s.heap := by
  obtain ⟨gone, hheap, hgone⟩ := h.heap
  have hnil : gone = [] := List.eq_nil_iff_forall_not_mem.2 fun id hid => hs id (hgone id hid)
  rw [hheap, hnil]
  simp [Heap.mapRoots, RootRegistry.releasing]

/-! ## Tame stores -/

/-- A store with the same roots and values. -/
theorem Tame.congr_roots (ht : s.Tame) (hwf : s'.heap.WellFormed) (hclean : s'.heap.Clean)
    (hroots : s'.heap.roots = s.heap.roots) (hvalues : s'.values = s.values) : s'.Tame where
  wellFormed := hwf
  clean := hclean
  released := by
    rw [hroots]
    exact ht.released
  unleased := by
    rw [hroots, hvalues]
    exact ht.unleased

theorem Tame.put (ht : s.Tame) (p : Address) {c : Cell} (hc : c.isMarked = false) :
    (s.mapHeap (·.put p c)).Tame :=
  ht.congr_roots (ht.wellFormed.put p c) (ht.clean.put p hc) (Heap.roots_put _ _ _) rfl

theorem Tame.link (ht : s.Tame) (block : List Address) : (s.mapHeap (·.link block)).Tame :=
  ht.congr_roots (ht.wellFormed.link block) (ht.clean.link block)
    (Heap.congr_link Heap.roots_put _ _) rfl

theorem Tame.mapRoots (ht : s.Tame) {f : RootRegistry → RootRegistry}
    (hreleased : (f s.heap.roots).released = s.heap.roots.released)
    (hregistry : (f s.heap.roots).registry = s.heap.roots.registry) :
    (s.mapHeap (·.mapRoots f)).Tame where
  wellFormed := ht.wellFormed.mapRoots f
  clean := ht.clean
  released := hreleased.trans ht.released
  unleased := by
    show ∀ id, ¬ s.values.Leases ⟨(f s.heap.roots).registry, id⟩
    rw [hregistry]
    exact ht.unleased

/-- The same heap, and values that own no more roots. -/
theorem Tame.of_givesUp (ht : s.Tame) (h : s.GivesUp s') : s'.Tame := by
  have hheap := h.heap_eq ht.unleased
  refine ⟨?_, ?_, ?_, ?_⟩
  · exact hheap ▸ ht.wellFormed
  · exact hheap ▸ ht.clean
  · exact hheap ▸ ht.released
  · intro id hid
    rw [hheap] at hid
    exact ht.unleased id (h.leases _ hid)

/-! ## Collections -/

theorem leases_of_collect {r : Except HeapError CollectionSummary} (hc : s.collect = .ok r s')
    {root : RootLease} (hr : s'.values.Leases root) : s.values.Leases root := by
  obtain ⟨c, -, ⟨_, _, _, _, hvalues⟩ | ⟨_, _, _, _, _, _, t, ht, _, hvalues⟩⟩ := collect_cases hc
  · exact hvalues ▸ hr
  · exact ht.leases root (hvalues ▸ hr)

theorem youngCollections_collect {report : CollectionSummary}
    (hc : s.collect = .ok (.ok report) s') :
    s'.heap.counters.youngCollections = s.heap.counters.youngCollections + 1 := by
  obtain ⟨c, _, _, _, _, hheap, ho, -⟩ := exists_finished hc
  obtain ⟨_, _, -, -, -, hleft, -⟩ := Heap.exists_evacuation hheap ho
  obtain ⟨roots, hs'⟩ := exists_roots_of_collect hheap hc
  rw [hs', hleft]
  rfl

/-- A collection that is given up leaves the cells and roots of a tame store. -/
theorem Tame.collect_error (ht : s.Tame) {error : HeapError}
    (hc : s.collect = .ok (.error error) s') :
    ∃ counters, s'.heap = { s.heap with counters } ∧ s'.values = s.values ∧
      counters.youngCollections = s.heap.counters.youngCollections := by
  obtain ⟨-, -, -, hheap, hvalues⟩ := of_refused ht.wellFormed ht.clean hc
  rw [Heap.purged_eq ht.released] at hheap
  exact ⟨_, hheap, hvalues, rfl⟩

/-- A collection of a tame store takes no root away. -/
theorem Tame.exists_relocates (ht : s.Tame) (hd : s.heap.NoDangling) {report : CollectionSummary}
    (hc : s.collect = .ok (.ok report) s') :
    ∃ f, Heap.Relocates s.heap f s'.heap ∧ s'.heap.roots = s.heap.roots.mapAddresses f ∧
      s'.heap.Clean := by
  obtain ⟨f, gone, hr, hclean, hroots, hgone⟩ := exists_mapsOnto hc
  have hnil : gone = [] := List.eq_nil_iff_forall_not_mem.2 fun id hid => ht.unleased id (hgone id hid)
  have hpurged := Heap.purged_eq ht.released
  have hd' : s.heap.purged.NoDangling := by rw [hpurged]; exact hd
  obtain ⟨hrel, -⟩ := relocates_of_keeps hd' hr hroots fun p hp => Heap.Clean.keeps ht.clean hp
  rw [hpurged] at hrel
  rw [hnil, RootRegistry.without_nil, hpurged] at hroots
  exact ⟨f, hrel, hroots, hclean⟩

theorem Tame.collect (ht : s.Tame) (hd : s.heap.NoDangling)
    {r : Except HeapError CollectionSummary} (hc : s.collect = .ok r s') : s'.Tame := by
  have hwf := wellFormed_collect ht.wellFormed hc
  cases r with
  | error error =>
    obtain ⟨counters, hheap, hvalues, -⟩ := ht.collect_error hc
    have hclean : s'.heap.Clean := hheap ▸ ht.clean
    exact ht.congr_roots hwf hclean (by rw [hheap]) hvalues
  | ok report =>
    obtain ⟨f, -, hroots, hclean⟩ := ht.exists_relocates hd hc
    refine ⟨hwf, hclean, ?_, ?_⟩
    · rw [hroots]
      exact ht.released
    · intro id hid
      rw [hroots] at hid
      exact ht.unleased id (leases_of_collect hc hid)

/-- **After a collection** the store mirrors what it did. -/
theorem mirrors_collect (ht : s.Tame) (hm : Mirrors R s.heap i)
    {r : Except HeapError CollectionSummary} (hc : s.collect = .ok r s') :
    ∃ R', Mirrors R' s'.heap i ∧ s.Outlives s' R R' := by
  cases r with
  | error error =>
    obtain ⟨counters, hheap, -, -⟩ := ht.collect_error hc
    refine ⟨R, hm.congr_heap (fun p => ?_) ?_, fun _ _ _ h => h⟩
    · rw [hheap]
      rfl
    · rw [hheap]
  | ok report =>
    obtain ⟨f, hrel, hroots, -⟩ := ht.exists_relocates hm.noDangling hc
    refine ⟨_, hm.relocate hrel hroots, ?_⟩
    intro hsame
    rw [youngCollections_collect hc] at hsame
    omega

/-! ## Allocations -/

theorem mirrors_tidied (ht : s.Tame) (hm : Mirrors R s.heap i) (h : s.Tidied s') :
    s'.Tame ∧ ∃ R', Mirrors R' s'.heap i ∧ s.Outlives s' R R' := by
  rcases h with ⟨hheap, hvalues⟩ | ⟨event, result, t, hc, hheap, hvalues⟩
  · exact ⟨ht.of_givesUp (.of_eq hheap hvalues), R, hheap ▸ hm, fun _ _ _ h => h⟩
  · -- the note of the full buffer touches neither the heap nor the values
    have hlog : (s.log event).Tame := ht.of_givesUp (.of_eq rfl rfl)
    have htame := hlog.collect hm.noDangling hc
    obtain ⟨R', hm', hout⟩ := mirrors_collect hlog hm hc
    refine ⟨htame.of_givesUp (.of_eq hheap hvalues), R', hheap ▸ hm', fun hsame => hout ?_⟩
    rw [← hheap]
    exact hsame

theorem follows_allocate (ht : s.Tame) (hm : Mirrors R s.heap i) {count : Nat}
    {r : Except HeapError Address} (ha : s.allocate count = .ok r s') :
    Follows s R i r s' (i.grow count) fun R' p =>
      ∀ block, p.block count = .ok block → List.Forall₂ R' block (i.block count) := by
  obtain ⟨t, htidied, hend⟩ := allocate_cases ha
  obtain ⟨htame, R₁, hm₁, hout⟩ := mirrors_tidied ht hm htidied
  rcases hend with ⟨error, rfl, rfl⟩ | ⟨heap, p, rfl, -, hroom, hg, rfl⟩
  · exact ⟨htame, fun _ _ => ⟨R₁, hm₁, hout⟩, fun _ hp => nomatch hp⟩
  · obtain ⟨R₂, hm₂, hle, hblock⟩ := hm₁.grow hg
    obtain ⟨q, -, hgrown⟩ := bind_eq_ok_iff.1 hg
    cases hgrown
    have hwf := htame.wellFormed.grow hroom hg
    refine ⟨htame.congr_roots hwf (htame.clean.grow count) rfl rfl, fun _ he => (nomatch he),
      fun q hq => ?_⟩
    cases hq
    exact ⟨R₂, hm₂, fun hsame p n hpn => hle p n (hout hsame p n hpn), hblock⟩

theorem follows_allocateLinked (ht : s.Tame) (hm : Mirrors R s.heap i) {count : Nat}
    {r : Except HeapError Address} (ha : s.allocateLinked count = .ok r s') :
    Follows s R i r s' ((i.grow count).link (i.block count)) fun R' p =>
      ∀ block, p.block count = .ok block → List.Forall₂ R' block (i.block count) := by
  obtain ⟨r₀, t, ha, hend⟩ := allocateLinked_cases ha
  obtain ⟨htame, herror, hok⟩ := follows_allocate ht hm ha
  rcases hend with ⟨error, rfl, rfl, rfl⟩ | ⟨p, block, rfl, rfl, hblock, rfl⟩
  · exact ⟨htame, herror, fun _ hp => nomatch hp⟩
  · obtain ⟨R', hm', hout, hpairs⟩ := hok p rfl
    refine ⟨htame.link block, fun _ he => (nomatch he), fun q hq => ?_⟩
    cases hq
    refine ⟨R', hm'.link (hpairs block hblock), fun hsame => hout ?_, hpairs⟩
    rw [← hsame]
    exact congrArg Counters.youngCollections (Heap.congr_link Heap.counters_put t.heap block).symm

/-! ## Operations -/

theorem write_cases {p : Address} {half : Half} {payload : Slot} {c : Cell}
    (hc : s.heap.get? p = some c) :
    ∃ s', s.write p half payload = .ok () s' ∧
      GivesUp (s.mapHeap (·.put p (c.store half payload))) s' := by
  unfold write
  rw [hc]
  exact ⟨_, rfl, givesUp_releaseSlot _ _⟩

theorem forall₂_toList {α β : Type} {P : α → β → Prop} {a : Option α} {b : Option β}
    (h : Option.Rel P a b) : List.Forall₂ P a.toList b.toList := by
  cases h with
  | some h => exact .cons h .nil
  | none => exact .nil

/-- The client obtains the addresses of all cells of a new block. -/
theorem Follows.block {t : Store} {count : Nat} {r₀ : Except HeapError Address}
    {r : Except HeapError (List Address)}
    (h : Follows s R i r₀ t i' fun R' p =>
      ∀ block, p.block count = .ok block → List.Forall₂ R' block (i.block count))
    (hp : blockPointers count r₀ t = .ok r s') :
    Follows s R i r s' i' fun R' obtained => List.Forall₂ R' obtained (i.block count) := by
  cases r₀ with
  | error error =>
    cases hp
    exact ⟨h.tame, fun _ _ => h.error error rfl, fun _ hr => nomatch hr⟩
  | ok p =>
    obtain ⟨block, t', hb, hr⟩ := Action.bind_eq_ok_iff.1 hp
    obtain ⟨hblock, rfl⟩ := Action.lift_eq_ok_iff.1 hb
    cases hr
    obtain ⟨R', hm, hout, hpairs⟩ := h.ok p rfl
    refine ⟨h.tame, fun _ he => (nomatch he), fun _ hr => ?_⟩
    cases hr
    exact ⟨R', hm, hout, hpairs block hblock⟩

theorem follows_write (ht : s.Tame) (hm : Mirrors R s.heap i) {p : Address} {n : Nat}
    (hpn : R p n) {half : Half} {a : Payload Address} {b : Payload Nat} (hab : a.Agrees R b)
    {r : Except HeapError (List Address)} (hp : s.perform (.write p half a) = .ok r s') :
    Follows s R i r s' (i.write n half b) fun R' obtained => List.Forall₂ R' obtained [] := by
  obtain ⟨c, d, hc, -, -⟩ := hm.cell hpn
  obtain ⟨_, t, hw, hp⟩ := Action.bind_eq_ok_iff.1 hp
  obtain ⟨t', hw', hgives⟩ := write_cases hc
  rw [hw'] at hw
  cases hw
  cases hp
  have hput : (s.mapHeap (·.put p (c.store half a.slot))).Tame :=
    ht.put p (by rw [Cell.isMarked_store, ht.clean.isMarked hc])
  refine .of_same (hput.of_givesUp hgives) ?_ .nil
  rw [hgives.heap_eq hput.unleased]
  exact hm.write hpn hc (by rw [Payload.payload_slot]; exact hab)

theorem follows_follow (ht : s.Tame) (hm : Mirrors R s.heap i) {p : Address} {n : Nat}
    (hpn : R p n) {half : Half} {r : Except HeapError (List Address)}
    (hp : s.perform (.follow p half) = .ok r s') :
    Follows s R i r s' i fun R' obtained => List.Forall₂ R' obtained (i.next? n half).toList := by
  obtain ⟨c, d, hc, -, -⟩ := hm.cell hpn
  have hnext := hm.next? hpn half
  rw [Heap.nextBy?, hc, Option.bind_some] at hnext
  obtain ⟨c', t, hf, hp⟩ := Action.bind_eq_ok_iff.1 hp
  rw [fetch, hc] at hf
  cases hf
  cases hp
  exact .of_same ht hm (forall₂_toList hnext)

theorem follows_collect (ht : s.Tame) (hm : Mirrors R s.heap i)
    {r : Except HeapError (List Address)} (hp : s.perform .collect = .ok r s') :
    Follows s R i r s' i fun R' obtained => List.Forall₂ R' obtained [] := by
  obtain ⟨r₀, t, hc, hp⟩ := Action.bind_eq_ok_iff.1 hp
  have htame := ht.collect hm.noDangling hc
  obtain ⟨R', hm', hout⟩ := mirrors_collect ht hm hc
  cases r₀ with
  | error error =>
    cases hp
    exact ⟨htame, fun _ _ => ⟨R', hm', hout⟩, fun _ hp => nomatch hp⟩
  | ok report =>
    cases hp
    refine ⟨htame, fun _ he => (nomatch he), fun _ hr => ?_⟩
    cases hr
    exact ⟨R', hm', hout, .nil⟩

/-- The payload of a write stands for the one that the ideal heap gets. -/
theorem agrees_of_pointers {x : Address × Nat} {half : Half} {payload : Payload (Address × Nat)}
    (h : ∀ y ∈ (Operation.write x half payload).pointers, R y.1 y.2) :
    (payload.map (·.1)).Agrees R (payload.map (·.2)) := by
  cases payload with
  | ref y => exact .ref (h y (List.mem_cons_of_mem _ (List.mem_singleton_self y)))
  | datum d => exact .datum d

/-- **What an operation leaves**, asked with pointers that stand for ideal cells: a mirror of what
    the ideal heap is then, and pointers that stand for those obtained from it. -/
theorem follows_perform (ht : s.Tame) (hm : Mirrors R s.heap i) {op : Operation (Address × Nat)}
    (hop : ∀ x ∈ op.pointers, R x.1 x.2) {r : Except HeapError (List Address)}
    (hp : s.perform (op.map (·.1)) = .ok r s') :
    Follows s R i r s' (i.perform (op.map (·.2))).1 fun R' obtained =>
      List.Forall₂ R' obtained (i.perform (op.map (·.2))).2 := by
  cases op with
  | allocate count =>
    obtain ⟨r₀, t, ha, hp⟩ := Action.bind_eq_ok_iff.1 hp
    exact (follows_allocate ht hm ha).block hp
  | allocateLinked count =>
    obtain ⟨r₀, t, ha, hp⟩ := Action.bind_eq_ok_iff.1 hp
    exact (follows_allocateLinked ht hm ha).block hp
  | write x half payload =>
    exact follows_write ht hm (hop x List.mem_cons_self) (agrees_of_pointers hop) hp
  | addRoot x =>
    obtain ⟨id, t, ha, hp⟩ := Action.bind_eq_ok_iff.1 hp
    obtain ⟨-, rfl, rfl⟩ := addRoot_eq_ok_iff.1 ha
    cases hp
    exact .of_same (ht.mapRoots rfl rfl) (hm.addRoot (hop x (List.mem_singleton_self x))) .nil
  | setRoot id x =>
    cases hp
    exact .of_same (ht.mapRoots rfl rfl) (hm.setRoot (hop x (List.mem_singleton_self x)) id) .nil
  | removeRoot id =>
    cases hp
    exact .of_same (ht.mapRoots rfl rfl) (hm.eraseRoot id) .nil
  | readRoot id =>
    cases hp
    exact .of_same ht hm (forall₂_toList (hm.root id))
  | follow x half => exact follows_follow ht hm (hop x (List.mem_singleton_self x)) hp
  | collect => exact follows_collect ht hm hp

/-! ## Faults -/

theorem answers_block {count : Nat} {r : Except HeapError Address}
    (h : ∀ p, r = .ok p → ∃ block, p.block count = .ok block) : (blockPointers count r).Answers s := by
  cases r with
  | error error => exact .of_ok rfl
  | ok p =>
    obtain ⟨block, hblock⟩ := h p rfl
    exact .bind (.of_ok (Action.lift_eq_ok_iff.2 ⟨hblock, rfl⟩)) fun _ _ _ => .of_ok rfl

/-- **An operation comes to an answer** when it is asked with pointers that stand for something. -/
theorem Tame.answers_perform (ht : s.Tame) (hm : Mirrors R s.heap i)
    {op : Operation (Address × Nat)} (hop : ∀ x ∈ op.pointers, R x.1 x.2) :
    (perform (op.map (·.1))).Answers s := by
  cases op with
  | allocate count =>
    exact .bind (answersUnless_allocate ht.wellFormed count).answers fun r t hr =>
      answers_block fun p hp => exists_block_of_allocate ht.wellFormed (hp ▸ hr)
  | allocateLinked count =>
    refine .bind (answersUnless_allocateLinked ht.wellFormed count).answers fun r t hr =>
      answers_block fun p hp => ?_
    obtain ⟨r₀, t₀, -, ⟨_, _, he, _⟩ | ⟨q, block, _, hq, hblock, _⟩⟩ := allocateLinked_cases hr
    · rw [hp] at he
      cases he
    · rw [hp] at hq
      cases hq
      exact ⟨block, hblock⟩
  | write x half payload =>
    obtain ⟨c, d, hc, -, -⟩ := hm.cell (hop x List.mem_cons_self)
    obtain ⟨t, hw, -⟩ := write_cases hc
    exact .bind (.of_ok hw) fun _ _ _ => .of_ok rfl
  | addRoot x => exact .bind (answersUnless_addRoot x.1).answers fun _ _ _ => .of_ok rfl
  | setRoot id x => exact .of_ok rfl
  | removeRoot id => exact .of_ok rfl
  | readRoot id => exact .of_ok rfl
  | follow x half =>
    obtain ⟨c, d, hc, -, -⟩ := hm.cell (hop x (List.mem_singleton_self x))
    refine .bind (.of_ok (a := c) (t := s) ?_) fun _ _ _ => .of_ok rfl
    show s.fetch x.1 = .ok c s
    rw [fetch, hc]
  | collect =>
    refine .bind (answers_collect ht.wellFormed ht.clean) ?_
    intro r t _
    cases r with
    | error error => exact .of_ok rfl
    | ok report => exact .of_ok rfl

end Store

end Tenure
