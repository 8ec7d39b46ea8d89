/-
  Tenure — cells that are known.

  While a client makes a structure it knows some cells: where they are, and what they hold.

  * `KnownCell`, `Heap.HasKnown`: some cells are known, at addresses of their own.
  * `HasKnown.transport`, `HasKnown.append`, `HasKnown.put`: they move, others are added, and one is
    written to.
  * `HasKnown.rootedClean`: what the roots reach then.
  * `Tenant.WritesOnlyKnown`: nothing but known cells has been written to; `WritesOnlyKnown.write`,
    `WritesOnlyKnown.share`: one more time.
-/
import Tenure.Proofs.UnreachableCells
import Tenure.Proofs.ChainPush

namespace Tenure

/-- What is known of a cell. -/
structure KnownCell where
  address : Address
  car : Slot := .empty
  cdr : Slot := .empty

namespace KnownCell

/-- One of the slots. -/
def slot (e : KnownCell) : Half → Slot
  | .car => e.car
  | .cdr => e.cdr

/-- The addresses in the cell. -/
def references (e : KnownCell) : List Address := e.car.ref?.toList ++ e.cdr.ref?.toList

/-- One of the slots is written. -/
def put (e : KnownCell) (half : Half) (payload : Slot) : KnownCell :=
  match half with
  | .car => { e with car := payload }
  | .cdr => { e with cdr := payload }

/-- The cell is at another address, and so are those that it refers to. -/
def moved (f : Address → Address) (e : KnownCell) : KnownCell :=
  ⟨f e.address, e.car.mapRef f, e.cdr.mapRef f⟩

/-- The cell is there, and it is as known. -/
def In (e : KnownCell) (h : Heap) : Prop :=
  ∃ c, h.get? e.address = some c ∧ c.isMarked = false ∧ c.car = e.car ∧ c.cdr = e.cdr

@[simp] theorem address_put (e : KnownCell) (half : Half) (payload : Slot) :
    (e.put half payload).address = e.address := by
  cases half <;> rfl

theorem exists_of_set {es : List KnownCell} {i : Nat} {e : KnownCell} (hi : es[i]? = some e)
    (e' : KnownCell) :
    ∃ before behind, es = before ++ e :: behind ∧ es.set i e' = before ++ e' :: behind := by
  obtain ⟨hlt, rfl⟩ := List.getElem?_eq_some_iff.1 hi
  obtain ⟨before, behind, hes, -, hset⟩ := List.exists_of_set hlt
  exact ⟨before, behind, hes, hset⟩

theorem map_address_set {es : List KnownCell} {i : Nat} {e : KnownCell} (hi : es[i]? = some e)
    (half : Half)
    (payload : Slot) : (es.set i (e.put half payload)).map (·.address) = es.map (·.address) := by
  obtain ⟨before, behind, rfl, hset⟩ := exists_of_set hi (e.put half payload)
  rw [hset, List.map_append, List.map_append, List.map_cons, List.map_cons, address_put]

theorem In.contains {e : KnownCell} {h : Heap} (he : e.In h) : h.contains e.address := by
  obtain ⟨c, hc, -⟩ := he
  exact Heap.contains_iff.2 ⟨c, hc⟩

theorem In.refersTo {e : KnownCell} {h : Heap} (he : e.In h) {q : Address} (hq : q ∈ e.references) :
    h.RefersTo e.address q := by
  obtain ⟨c, hc, -, hcar, hcdr⟩ := he
  exact ⟨c, hc, by rwa [Cell.references, hcar, hcdr]⟩

end KnownCell

/-- Some cells are known, at addresses of their own. -/
structure Heap.HasKnown (h : Heap) (es : List KnownCell) : Prop where
  nodup : (es.map (·.address)).Nodup
  cell : ∀ e ∈ es, e.In h

namespace Heap.HasKnown

variable {h h' : Heap} {es : List KnownCell} {e : KnownCell} {i : Nat} {f : Address → Address}
  {within : Set Address} {half : Half} {payload : Slot}

/-- **Known cells** are known where they have moved. -/
theorem transport (hp : h.HasKnown es) (hf : h.Transports within f h')
    (hinj : Set.InjOn f {p | p ∈ within ∧ h.contains p}) (hwithin : ∀ e ∈ es, e.address ∈ within) :
    h'.HasKnown (es.map (KnownCell.moved f)) := by
  have hmem : ∀ e ∈ es, e.address ∈ {p | p ∈ within ∧ h.contains p} := fun e he =>
    ⟨hwithin e he, (hp.cell e he).contains⟩
  constructor
  · have haddresses : (es.map (KnownCell.moved f)).map (·.address) = (es.map (·.address)).map f := by
      rw [List.map_map, List.map_map]
      rfl
    rw [haddresses]
    refine hp.nodup.map_on fun p hp q hq heq => ?_
    obtain ⟨e, he, rfl⟩ := List.mem_map.1 hp
    obtain ⟨e', he', rfl⟩ := List.mem_map.1 hq
    exact hinj (hmem e he) (hmem e' he') heq
  · intro e' he'
    obtain ⟨e, he, rfl⟩ := List.mem_map.1 he'
    obtain ⟨c, hc, hm, hcar, hcdr⟩ := hp.cell e he
    obtain ⟨d, hd, ⟨hcar', hcdr'⟩, hdc⟩ := hf e.address (hwithin e he) c hc
    exact ⟨d, hd, Transports.unmarked hm hdc, by rw [hcar', hcar]; rfl, by rw [hcdr', hcdr]; rfl⟩

/-- A block of blank cells is added to them. -/
theorem append {block : List Address} (hp : h.HasKnown es) (hnodup : block.Nodup)
    (hblank : ∀ q ∈ block, h.get? q = some .blank) (hapart : ∀ e ∈ es, e.address ∉ block) :
    h.HasKnown (es ++ block.map fun q => { address := q }) := by
  constructor
  · have haddresses : (es ++ block.map fun q => ({ address := q } : KnownCell)).map (·.address) =
        es.map (·.address) ++ block := by
      rw [List.map_append, List.map_map]
      simp [Function.comp_def]
    rw [haddresses]
    refine List.nodup_append'.2 ⟨hp.nodup, hnodup, fun p hp hq => ?_⟩
    obtain ⟨e, he, rfl⟩ := List.mem_map.1 hp
    exact hapart e he hq
  · intro e he
    rcases List.mem_append.1 he with he | he
    · exact hp.cell e he
    · obtain ⟨q, hq, rfl⟩ := List.mem_map.1 he
      exact ⟨.blank, hblank q hq, rfl, rfl, rfl⟩

theorem congr (hp : h.HasKnown es) (hget : ∀ q, h'.get? q = h.get? q) : h'.HasKnown es :=
  ⟨hp.nodup, fun e he => by
    obtain ⟨c, hc, hrest⟩ := hp.cell e he
    exact ⟨c, (hget _).trans hc, hrest⟩⟩

theorem purged (hp : h.HasKnown es) : h.purged.HasKnown es := hp.congr fun _ => rfl

/-- **One of the known cells is written to.** -/
theorem put (hp : h.HasKnown es) (hi : es[i]? = some e) {c : Cell} (hc : h.get? e.address = some c)
    (half : Half) (payload : Slot) :
    (h.put e.address (c.store half payload)).HasKnown (es.set i (e.put half payload)) := by
  obtain ⟨before, behind, rfl, hset⟩ := KnownCell.exists_of_set hi (e.put half payload)
  have hnodup : (e.address :: (before ++ behind).map (·.address)).Nodup := by
    have hall := hp.nodup
    rw [List.map_append, List.map_cons] at hall
    rw [List.map_append]
    exact List.nodup_middle.1 hall
  constructor
  · rw [KnownCell.map_address_set hi]
    exact hp.nodup
  · intro e' he'
    rw [hset] at he'
    have hcases : e' = e.put half payload ∨ e' ∈ before ++ behind := by
      simpa [or_left_comm] using he'
    rcases hcases with rfl | hother
    · obtain ⟨c', hc', hm, hcar, hcdr⟩ := hp.cell e (by simp)
      obtain rfl : c = c' := Option.some.inj (hc.symm.trans hc')
      refine ⟨c.store half payload, ?_, ?_, ?_, ?_⟩
      · rw [KnownCell.address_put]
        exact get?_put_self hc _
      · rw [Cell.isMarked_store]
        exact hm
      · cases half with
        | car => exact Slot.store_eq _ _
        | cdr => exact hcar
      · cases half with
        | car => exact hcdr
        | cdr => exact Slot.store_eq _ _
    · have hne : e'.address ≠ e.address := fun heq =>
        (List.nodup_cons.1 hnodup).1 (heq ▸ List.mem_map_of_mem hother)
      obtain ⟨d, hd, hrest⟩ := hp.cell e' (by
        rcases List.mem_append.1 hother with hmem | hmem
        · exact List.mem_append_left _ hmem
        · exact List.mem_append_right _ (List.mem_cons_of_mem _ hmem))
      exact ⟨d, (get?_put_of_ne hne _).trans hd, hrest⟩

/-- What the roots reach after a root has been registered or known cells have been written to: cells
    that they reached before, and known cells. -/
theorem rootedClean (hp : h'.HasKnown es) (hn : h.RootedClean) {W : Set Address}
    (hroots : ∀ p ∈ h'.roots.addresses, p ∈ W) (hold : ∀ p, h.Rooted p → p ∈ W)
    (hcells : ∀ p ∈ W, (h.Rooted p ∧ h'.get? p = h.get? p) ∨
      ∃ e ∈ es, e.address = p ∧ ∀ q ∈ e.references, q ∈ W) :
    h'.RootedClean ∧ ∀ p, h'.Rooted p → p ∈ W := by
  refine rootedClean_of_closed hroots fun p hmem => ?_
  rcases hcells p hmem with ⟨hrooted, hget⟩ | ⟨e, he, rfl, hrefers⟩
  · obtain ⟨c, hc, hm, hrest⟩ := hn.cell hrooted
    exact ⟨c, hget.trans hc, hm, fun q hq => hold q (hrest q hq)⟩
  · obtain ⟨c, hc, hm, hcar, hcdr⟩ := hp.cell e he
    refine ⟨c, hc, hm, fun q hq => hrefers q ?_⟩
    rwa [Cell.references, hcar, hcdr] at hq

end Heap.HasKnown

namespace Tenant

/-- Since `w` a client has written to known cells only, which are as known now. -/
structure WritesOnlyKnown (w : Tenant) (es : List KnownCell) (values : Values) (s : Store) : Prop where
  steps : Relation.ReflTransGen (Step {}) w { w with store := s }
  known : s.heap.HasKnown es
  values : s.values = values
  roots : s.heap.roots = w.roots
  counters : s.heap.counters = w.store.heap.counters
  others : ∀ q, q ∉ es.map (·.address) → s.heap.get? q = w.store.heap.get? q

variable {w : Tenant} {es : List KnownCell} {values : Values} {s s' : Store} {e : KnownCell}
  {i : Nat} {half : Half}
  {payload : Slot}

theorem WritesOnlyKnown.start (hp : w.store.heap.HasKnown es) :
    w.WritesOnlyKnown es w.store.values w.store :=
  ⟨.refl, hp, rfl, rfl, rfl, fun _ _ => rfl⟩

/-- What is written to a known cell. -/
theorem WritesOnlyKnown.wrote (h : w.WritesOnlyKnown es values s) (hi : es[i]? = some e) {c : Cell}
    (hc : s.heap.get? e.address = some c) {values' : Values} {s₁ : Store}
    (hsteps : Relation.ReflTransGen (Step {}) { w with store := s }
      { w with store := s₁.mapHeap (·.put e.address (c.store half payload)) })
    (hheap : s₁.heap = s.heap) (hvalues : s₁.values = values') :
    w.WritesOnlyKnown (es.set i (e.put half payload)) values'
      (s₁.mapHeap (·.put e.address (c.store half payload))) where
  steps := h.steps.trans hsteps
  known := by
    rw [Store.heap_mapHeap, hheap]
    exact h.known.put hi hc half payload
  values := hvalues
  roots := by
    rw [Store.heap_mapHeap, hheap, Heap.roots_put]
    exact h.roots
  counters := by
    rw [Store.heap_mapHeap, hheap, Heap.counters_put]
    exact h.counters
  others q hq := by
    rw [KnownCell.map_address_set hi] at hq
    have hne : q ≠ e.address := fun heq => hq (heq ▸ List.mem_map_of_mem (List.mem_of_getElem? hi))
    rw [Store.heap_mapHeap, hheap, Heap.get?_put_of_ne hne]
    exact h.others q hq

/-- **A slot of a known cell is written**, and no values are involved. -/
theorem WritesOnlyKnown.write (h : w.WritesOnlyKnown es values s) (hi : es[i]? = some e)
    (hslot : (e.slot half).value? = none) (hpayload : payload.value? = none)
    (hw : s.write e.address half payload = .ok () s') :
    w.WritesOnlyKnown (es.set i (e.put half payload)) values s' := by
  obtain ⟨c, hc, -, hcar, hcdr⟩ := h.known.cell e (List.mem_of_getElem? hi)
  have hslot' : (c.slot half).value? = none := by
    cases half with
    | car => rwa [Cell.slot, hcar]
    | cdr => rwa [Cell.slot, hcdr]
  obtain ⟨rfl, hstep⟩ := Step.write (r := {}) (t := { w with store := s }) (Set.notMem_empty _) hc
    hslot' hpayload hw
  exact h.wrote hi hc (.single hstep) rfl h.values

/-- **A further reference to a value is written into the car of a known cell.** -/
theorem WritesOnlyKnown.share (h : w.WritesOnlyKnown es values s) {p : Address} {cdr : Slot} {v : ValueId}
    (hi : es[i]? = some ⟨p, .empty, cdr⟩) (hlive : 0 < values.count v)
    (hs : Sample.share p .car v s = .ok () s') :
    w.WritesOnlyKnown (es.set i ⟨p, .value v, cdr⟩) (values.retain v) s' := by
  obtain ⟨c, hc, -, hcar, -⟩ := h.known.cell _ (List.mem_of_getElem? hi)
  obtain ⟨_, s₁, hretain, hw⟩ := Action.bind_eq_ok_iff.1 hs
  cases hretain
  have hempty : c.car = .empty := hcar
  have hslot : (c.slot .car).value? = none := congrArg Slot.value? hempty
  have hretain : Step {} { w with store := s }
      { w with store := s.retain v, handles := v :: w.handles } :=
    .retain (Set.notMem_empty v) (h.values ▸ hlive)
  have hs' : s' = (s.retain v).mapHeap (·.put p (c.store .car (.value v))) := Store.write_eq hc hslot hw
  have hput : Step {} { w with store := s.retain v, handles := v :: w.handles }
      { w with store := (s.retain v).mapHeap (·.put p (c.store .car (.value v))) } := by
    refine .put (Set.notMem_empty p) hc (fun hm => ?_) ?_ fun u hu => nomatch hu
    · rwa [Cell.isMarked_store] at hm
    · have hvalues : (c.store .car (.value v)).values = v :: c.values := by
        simp [Cell.values, Cell.store, Cell.setSlot, Slot.value?, hempty]
      rw [hvalues]
      exact List.perm_middle
  rw [hs']
  exact h.wrote hi hc ((Relation.ReflTransGen.single hretain).tail hput) rfl
    (congrArg (·.retain v) h.values)

end Tenant

end Tenure
