/-
  Tenure — stores that are tracked.

  * `Store.Spends`: cells that pay for the collection that makes room for them;
    `spends_allocate`, `spends_allocateLinked`: allocations keep to it.
  * `Store.Tracks`: a tame store that mirrors an ideal heap, the totals of which are paid
    for, and the counts of which are known to stay low.
  * `Store.Spent`: where a number of the heap has come to its limit.
  * `Tracks.allocate`, `Tracks.allocateLinked`, `Tracks.write`, `Tracks.addRoot`,
    `Tracks.setRoot`, `Tracks.eraseRoot`, `Tracks.newValue`, `Tracks.retain`: operations
    leave the store so.
-/
import Tenure.Proofs.Attempts
import Tenure.Proofs.ReferenceCounts
import Tenure.Proofs.Simulation
import Tenure.Proofs.Totals

namespace Tenure

/-! ## Values -/

namespace Values

variable {values : Values} {root : RootLease}

theorem leases_of_add {value : ExternalValue} (hvalue : ∀ name root, value ≠ .owner name root)
    (h : (values.add value).1.Leases root) : values.Leases root := by
  obtain ⟨i, entry, name, hi, howner⟩ := h
  rw [add, Array.getElem?_push] at hi
  split at hi
  · cases hi
    exact absurd howner (hvalue _ _)
  · exact ⟨i, entry, name, hi, howner⟩

theorem leases_of_retain {v : ValueId} (h : (values.retain v).Leases root) : values.Leases root := by
  obtain ⟨i, entry, name, hi, howner⟩ := h
  rw [retain_eq, getElem?_recount] at hi
  split at hi
  · obtain ⟨old, hold, rfl⟩ := Option.map_eq_some_iff.1 hi
    exact ⟨i, old, name, hold, howner⟩
  · exact ⟨i, entry, name, hi, howner⟩

end Values

/-! ## Settings and totals -/

namespace Heap

variable {h : Heap}

theorem settings_collect (hh : h.WellFormed) {c : Collection} (hc : h.collect = .ok c) :
    c.heap.settings = h.settings := by
  have hp := hh.prepared
  obtain ⟨-, heap, outcome, rfl, ⟨-, ha, -⟩ | ⟨-, hm⟩⟩ := collect_cases hc
  · obtain rfl := eq_of_abandon ha
    exact settings_prepared h
  · obtain ⟨-, -, hs, -, -⟩ := sizes_move hp.idle hp.relocations hm
    exact hs.trans (settings_prepared h)

end Heap

namespace Store

variable {s s' s'' : Store}

/-- So many cells were allocated, and paid for all collections but `more`.  No value has more
    references than before. -/
structure Spends (s : Store) (count more : Nat) (s' : Store) : Prop where
  covered : s'.heap.Covered more
  accounted : s'.heap.accounted = s.heap.accounted + count
  count : ∀ v, s'.values.count v ≤ s.values.count v

theorem spends_collect (hh : s.heap.WellFormed) (hclean : s.heap.Clean) (hs : s.heap.Covered 0)
    {r : Except HeapError CollectionSummary} (hc : s.collect = .ok r s') : s.Spends 0 1 s' := by
  obtain ⟨-, c, hheap, hends⟩ := collect_references hc
  obtain ⟨roots, hs'⟩ := exists_roots_of_collect hheap hc
  have hcollects := Heap.collects_of_collect hheap
  refine ⟨?_, ?_, fun v => ?_⟩
  · rw [hs']
    exact (hs.collects hh hclean hcollects).mapRoots fun _ => roots
  · rw [hs']
    show c.heap.accounted = s.heap.accounted
    exact Heap.accounted_collects hh.idle hclean hcollects
  · rcases hends with ⟨_, -, -, -, hvalues⟩ | ⟨_, _, _, _, -, -, -, hcount⟩
    · rw [hvalues]
    · rw [hcount]
      omega

theorem spends_tidied (hh : s.heap.WellFormed) (hclean : s.heap.Clean) (hs : s.heap.Covered 0)
    (h : s.Tidied s') : s.Spends 0 1 s' := by
  obtain ⟨hheap, hvalues⟩ | ⟨event, r, t, hc, hheap, hvalues⟩ := h
  · exact ⟨hheap ▸ hs.mono (Nat.zero_le _), hheap ▸ rfl, fun v => hvalues ▸ Nat.le_refl _⟩
  · obtain ⟨hcovered, haccounted, hcount⟩ := spends_collect (s := s.log event) hh hclean hs hc
    exact ⟨hheap ▸ hcovered, hheap ▸ haccounted, hvalues ▸ hcount⟩

theorem pos_of_allocate {count : Nat} {p : Address} (ha : s.allocate count = .ok (.ok p) s') :
    0 < count := by
  obtain ⟨_, -, ⟨_, hr, -⟩ | ⟨_, _, -, hpos, -⟩⟩ := allocate_cases ha
  · cases hr
  · exact hpos

/-- **The cells of a block** pay for the collection that makes room for them. -/
theorem spends_allocate (hh : s.heap.WellFormed) (hclean : s.heap.Clean) (hs : s.heap.Covered 0)
    {count : Nat} {p : Address} (ha : s.allocate count = .ok (.ok p) s') : s.Spends count 0 s' := by
  obtain ⟨t, htidied, ⟨_, he, -⟩ | ⟨heap, q, -, hpos, -, hg, rfl⟩⟩ := allocate_cases ha
  · cases he
  · obtain ⟨hcovered, haccounted, hcount⟩ := spends_tidied hh hclean hs htidied
    exact ⟨hcovered.grow hpos hg, (Heap.accounted_grow hg).trans (congrArg (· + count) haccounted),
      hcount⟩

theorem spends_allocateLinked (hh : s.heap.WellFormed) (hclean : s.heap.Clean)
    (hs : s.heap.Covered 0) {count : Nat} {p : Address}
    (hl : s.allocateLinked count = .ok (.ok p) s') : s.Spends count 0 s' := by
  obtain ⟨r₀, t, ha, ⟨_, -, he, -⟩ | ⟨q, block, rfl, -, -, rfl⟩⟩ := allocateLinked_cases hl
  · cases he
  · obtain ⟨hcovered, haccounted, hcount⟩ := spends_allocate hh hclean hs ha
    exact ⟨hcovered.link block, (Heap.congr_link Heap.accounted_put _ _).trans haccounted, hcount⟩

end Store

/-! ## Tracked stores -/

/-- What is known of the numbers that a heap counts with and of the counts of values. -/
structure Bounds where
  /-- The most cells that are allocated. -/
  cells : Nat
  /-- The most roots that are registered before the last one. -/
  ids : Nat
  /-- How many references to each value there are outside of the heap. -/
  outside : ValueId → Nat
  /-- How many references to each value there are at most. -/
  ceiling : ValueId → Nat

/-- A further reference to a value, in the hands of the client. -/
def Bounds.more (b : Bounds) (v : ValueId) : Bounds :=
  { b with
    outside := fun w => (if w = v then 1 else 0) + b.outside w
    ceiling := fun w => (if w = v then 1 else 0) + b.ceiling w }

@[simp] theorem Bounds.outside_more (b : Bounds) (v w : ValueId) :
    (b.more v).outside w = (if w = v then 1 else 0) + b.outside w := rfl

@[simp] theorem Bounds.ceiling_more (b : Bounds) (v w : ValueId) :
    (b.more v).ceiling w = (if w = v then 1 else 0) + b.ceiling w := rfl

/-- A reference in the hands of the client is put into a cell. -/
def Bounds.put (b : Bounds) (v : ValueId) : Bounds :=
  { b with ceiling := fun w => (if w = v then 1 else 0) + b.ceiling w }

namespace Store

/-- A tame store that mirrors an ideal heap, where so many further cells may be allocated. -/
structure Tracks (b : Bounds) (left : Nat) (s : Store) (R : Address → Nat → Prop) (i : Ideal) :
    Prop where
  tame : s.Tame
  mirrors : Mirrors R s.heap i
  covered : s.heap.Covered 0
  cells : s.heap.accounted + left ≤ b.cells
  balanced : s.Balanced b.outside
  count : ∀ v, s.values.count v ≤ b.ceiling v

/-- A number of the heap has come to its limit: a total, which takes half as many cells, or the serial
    number of the next root. -/
inductive Spent (b : Bounds) (s : Store) : Prop
  | totals : s.heap.collect = .error .additionOverflow → Word.limit ≤ 2 * s.heap.accounted →
    s.heap.accounted ≤ b.cells → Spent b s
  | roots : Word.limit ≤ s.heap.roots.next + 1 → s.heap.roots.next ≤ b.ids → Spent b s

theorem Spent.congr {b b' : Bounds} (h : Spent b s) (hcells : b'.cells = b.cells)
    (hids : b'.ids = b.ids) : Spent b' s := by
  cases h with
  | totals hfault hlimit hcount => exact .totals hfault hlimit (hcells ▸ hcount)
  | roots hlimit hcount => exact .roots hlimit (hids ▸ hcount)

namespace Tracks

variable {b b' : Bounds} {left : Nat} {s s' : Store} {R R' : Address → Nat → Prop} {i i' : Ideal}
  {p q : Address} {n m : Nat}

theorem mono (h : Tracks b left s R i) {less : Nat} (hle : less ≤ left) : Tracks b less s R i :=
  { h with cells := (Nat.add_le_add_left hle _).trans h.cells }

/-- Cells were allocated. -/
theorem spend {count : Nat} (h : Tracks b (left + count) s R i) (hs : s.Spends count 0 s')
    (htame : s'.Tame) (hm : Mirrors R' s'.heap i') (hc : s.Conserves s') : Tracks b left s' R' i' where
  tame := htame
  mirrors := hm
  covered := hs.covered
  cells := by
    have hcells := h.cells
    rw [hs.accounted]
    omega
  balanced := (hc _ h.balanced).1
  count v := (hs.count v).trans (h.count v)

/-- Nothing was counted. -/
theorem keep (h : Tracks b left s R i) (htame : s'.Tame) (hm : Mirrors R s'.heap i')
    (hcovered : s'.heap.Covered 0) (haccounted : s'.heap.accounted = s.heap.accounted)
    (hb : s'.Balanced b.outside) (hcount : ∀ v, s'.values.count v ≤ s.values.count v) :
    Tracks b left s' R i' where
  tame := htame
  mirrors := hm
  covered := hcovered
  cells := haccounted ▸ h.cells
  balanced := hb
  count v := (hcount v).trans (h.count v)

/-! ### Allocations -/

/-- What an allocation leaves when it succeeds: new cells, all of them mirrored. -/
def Obtains (b : Bounds) (left : Nat) (i i' : Ideal) (count : Nat) :
    Except HeapError Address → Store → Prop
  | .ok p, s => 0 < count ∧ ∃ R block, Tracks b left s R i' ∧ p.block count = .ok block ∧
      List.Forall₂ R block (i.block count)
  | .error _, _ => True

theorem spent (h : Tracks b left s R i) (ho : s.Overflows s') : Spent b s' := by
  obtain ⟨hheap, hfault⟩ := ho
  have hcells := h.cells
  refine .totals (by rw [hheap]; exact hfault) ?_ ?_
  · rw [hheap]
    exact h.covered.limit_le h.tame.wellFormed h.tame.clean hfault
  · rw [hheap]
    omega

theorem obtains {count : Nat} (h : Tracks b (left + count) s R i) {r : Except HeapError Address}
    (hf : Follows s R i r s' i' fun R' p =>
      ∀ block, p.block count = .ok block → List.Forall₂ R' block (i.block count))
    (hs : ∀ p, r = .ok p → s.Spends count 0 s') (hc : s.Conserves s')
    (hblock : ∀ p, r = .ok p → 0 < count ∧ ∃ block, p.block count = .ok block) :
    Obtains b left i i' count r s' := by
  cases r with
  | error error => trivial
  | ok p =>
    obtain ⟨R', hm, -, hpairs⟩ := hf.ok p rfl
    obtain ⟨hpos, block, hb⟩ := hblock p rfl
    exact ⟨hpos, R', block, h.spend (hs p rfl) hf.tame hm hc, hb, hpairs block hb⟩

theorem allocate {count : Nat} (h : Tracks b (left + count) s R i) :
    (Store.allocate count).Yields (Spent b) s (Obtains b left i (i.grow count) count) := by
  have hh := h.tame.wellFormed
  refine ((yields_allocate hh count).because fun _ => h.spent).answer fun r t ha => ?_
  refine h.obtains (follows_allocate h.tame h.mirrors ha) (fun p hp => ?_) (conserves_allocate ha)
    fun p hp => ?_
  · subst hp
    exact spends_allocate hh h.tame.clean h.covered ha
  · subst hp
    exact ⟨pos_of_allocate ha, exists_block_of_allocate hh ha⟩

theorem allocateLinked {count : Nat} (h : Tracks b (left + count) s R i) :
    (Store.allocateLinked count).Yields (Spent b) s
      (Obtains b left i ((i.grow count).link (i.block count)) count) := by
  have hh := h.tame.wellFormed
  refine ((yields_allocateLinked hh count).because fun _ => h.spent).answer fun r t ha => ?_
  refine h.obtains (follows_allocateLinked h.tame h.mirrors ha) (fun p hp => ?_)
    (conserves_allocateLinked ha) fun p hp => ?_
  · subst hp
    exact spends_allocateLinked hh h.tame.clean h.covered ha
  · obtain ⟨r₀, t₀, ha₀, ⟨_, _, he, _⟩ | ⟨q, block, rfl, hq, hblock, _⟩⟩ := allocateLinked_cases ha
    · cases hp.symm.trans he
    · cases hp.symm.trans hq
      exact ⟨pos_of_allocate ha₀, block, hblock⟩

/-! ### Cells -/

/-- A payload that is written brings its reference along. -/
theorem writeAny {outside : ValueId → Nat} (h : Tracks { b with outside } left s R i) (hpn : R p n)
    (half : Half) {payload : Slot} {a : Payload Nat} (ha : payload.payload.Agrees R a)
    (hout : ∀ v, outside v = payload.uses v + b.outside v) :
    ∃ s', Store.write p half payload s = .ok () s' ∧ Tracks b left s' R (i.write n half a) := by
  obtain ⟨c, d, hc, -, -⟩ := h.mirrors.cell hpn
  obtain ⟨s', hw, hgives⟩ : ∃ s', Store.write p half payload s = .ok () s' ∧
      (s.mapHeap (·.put p (c.store half payload))).GivesUp s' := write_cases hc
  have hput : (s.mapHeap (·.put p (c.store half payload))).Tame :=
    h.tame.put p (by rw [Cell.isMarked_store, h.tame.clean.isMarked hc])
  have hheap : s'.heap = s.heap.put p (c.store half payload) := hgives.heap_eq hput.unleased
  have hcount : ∀ v, s'.values.count v ≤ s.values.count v := by
    intro v
    rcases write_ends (Or.inl hw) with ⟨_, -, rfl⟩ | rfl
    · exact (count_releaseSlot _ _).trans_le (Nat.sub_le _ _)
    · exact (count_releaseSlot _ _).trans_le (Nat.sub_le _ _)
  refine ⟨s', hw, hput.of_givesUp hgives, ?_, ?_, ?_, ?_, fun v => (hcount v).trans (h.count v)⟩
  · rw [hheap]
    exact h.mirrors.write hpn hc ha
  · rw [hheap]
    exact h.covered.put hc (Cell.flags_store c half payload)
  · rw [hheap, Heap.accounted_put]
    exact h.cells
  · exact (balanced_write (h.balanced.congr hout) (Or.inl hw)).1

/-- A payload that is no reference to a value. -/
theorem write (h : Tracks b left s R i) (hpn : R p n) (half : Half) {payload : Slot} {a : Payload Nat}
    (ha : payload.payload.Agrees R a) (hv : payload.value? = none) :
    ∃ s', Store.write p half payload s = .ok () s' ∧ Tracks b left s' R (i.write n half a) :=
  writeAny (b := b) h hpn half ha fun _ => by
    rw [Slot.uses_eq_zero hv, Nat.zero_add]

theorem writeRef (h : Tracks b left s R i) (hpn : R p n) (half : Half) (hqm : R q m) :
    ∃ s', Store.write p half (.ref q) s = .ok () s' ∧ Tracks b left s' R (i.write n half (.ref m)) :=
  h.write hpn half (by rw [Slot.payload_of_ref? rfl]; exact .ref hqm) rfl

theorem writeDatum (h : Tracks b left s R i) (hpn : R p n) (half : Half) (d : Datum)
    (hv : d.slot.value? = none) :
    ∃ s', Store.write p half d.slot s = .ok () s' ∧ Tracks b left s' R (i.write n half (.datum d)) :=
  h.write hpn half (by rw [Slot.payload_of_ref?_eq_none d.noRef]; exact .datum d) hv

/-! ### Roots -/

theorem mapRoots (h : Tracks b left s R i) {f : RootRegistry → RootRegistry}
    (htame : (s.mapHeap (·.mapRoots f)).Tame) (hm : Mirrors R (s.heap.mapRoots f) i') :
    Tracks b left (s.mapHeap (·.mapRoots f)) R i' :=
  h.keep htame hm (h.covered.mapRoots f) rfl
    (conserves_mapHeap (fun hh => hh.mapRoots f) (fun _ => rfl) _ h.balanced).1 fun _ => Nat.le_refl _

/-- A further root is registered, unless there is no serial number for it. -/
theorem addRoot (h : Tracks b left s R i) (hpn : R p n) (hids : i.next ≤ b.ids) :
    (Store.addRoot p).Yields (Spent b) s fun id t => id = ⟨i.next⟩ ∧
      Tracks b left t R { i with roots := i.roots ++ [(⟨i.next⟩, n)], next := i.next + 1 } := by
  have hnext := h.mirrors.next
  rcases Nat.lt_or_ge (s.heap.roots.next + 1) Word.limit with hlt | hle
  · refine .of_ok (addRoot_of_lt hlt p) ⟨congrArg RootId.mk hnext, ?_⟩
    exact h.mapRoots (h.tame.mapRoots rfl rfl) (h.mirrors.addRoot hpn)
  · exact Or.inr ⟨s, addRoot_of_le hle p, .roots hle (hnext ▸ hids)⟩

theorem setRoot (h : Tracks b left s R i) (hpn : R p n) (id : RootId) :
    Tracks b left (s.mapHeap (·.mapRoots (·.set id p))) R
      { i with roots := i.roots.map fun e => if e.1 = id then (id, n) else e } :=
  h.mapRoots (h.tame.mapRoots rfl rfl) (h.mirrors.setRoot hpn id)

theorem eraseRoot (h : Tracks b left s R i) (id : RootId) :
    Tracks b left (s.mapHeap (·.mapRoots (·.erase id))) R
      { i with roots := i.roots.filter (·.1 != id) } :=
  h.mapRoots (h.tame.mapRoots rfl rfl) (h.mirrors.eraseRoot id)

theorem root (h : Tracks b left s R i) {id : RootId} (hn : i.roots.lookup id = some n) :
    ∃ p, s.heap.roots.get? id = some p ∧ R p n := by
  have hroot := h.mirrors.root id
  rw [hn] at hroot
  generalize s.heap.roots.get? id = a at hroot ⊢
  cases hroot with
  | some hpn => exact ⟨_, rfl, hpn⟩

/-! ### Values -/

theorem log (h : Tracks b left s R i) (event : Event) (he : event.isEnding = false) :
    Tracks b left (s.log event) R i :=
  h.keep (h.tame.of_givesUp (.of_eq rfl rfl)) h.mirrors h.covered rfl
    (conserves_log s he _ h.balanced).1 fun _ => Nat.le_refl _

/-- The client has a further reference. -/
theorem more (h : Tracks b left s R i) {v : ValueId} (hheap : s'.heap = s.heap)
    (hleases : ∀ root, s'.values.Leases root → s.values.Leases root)
    (hcount : ∀ w, s'.values.count w = s.values.count w + if w = v then 1 else 0) :
    Tracks (b.more v) left s' R i where
  tame := h.tame.of_givesUp
    ⟨(GivesUp.of_eq hheap rfl : s.GivesUp { s with heap := s'.heap }).heap, hleases⟩
  mirrors := hheap ▸ h.mirrors
  covered := hheap ▸ h.covered
  cells := hheap ▸ h.cells
  balanced := by
    refine ⟨hheap ▸ h.balanced.wellFormed, fun w => ?_⟩
    rw [hcount, h.balanced.count, hheap, Bounds.outside_more]
    omega
  count w := by
    have := h.count w
    rw [hcount, Bounds.ceiling_more]
    omega

theorem newValue (h : Tracks b left s R i) (value : ExternalValue)
    (hvalue : ∀ name root, value ≠ .owner name root) :
    Tracks (b.more (s.newValue value).2) left (s.newValue value).1 R i :=
  h.more rfl (fun _ => Values.leases_of_add hvalue) (Values.count_add _ _)

theorem retain (h : Tracks b left s R i) {v : ValueId} (hv : 0 < b.outside v) :
    Tracks (b.more v) left (s.retain v) R i := by
  refine h.more rfl (fun _ => Values.leases_of_retain) fun w => ?_
  exact Values.count_retain (by rw [h.balanced.count]; omega)

/-- One of the references of the client is put into a cell. -/
theorem writeValue {v : ValueId} (h : Tracks (b.more v) left s R i) (hpn : R p n) (half : Half) :
    ∃ s', Store.write p half (.value v) s = .ok () s' ∧
      Tracks (b.put v) left s' R (i.write n half (.datum ⟨.value v, rfl⟩)) := by
  refine writeAny (b := b.put v) h hpn half ?_ fun w => by rw [Slot.uses_value]; rfl
  rw [Slot.payload_of_ref?_eq_none rfl]
  exact .datum _

end Tracks

end Store

end Tenure
