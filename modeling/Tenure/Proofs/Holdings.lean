/-
  Tenure — clients that hold references.

  A client works with cells in the heap and with cells and references of its own.
  Whatever it does, the count of a value is the number of references to it that there
  are, and the value ends when the last of them goes.

  * `Holdings`: a store, and what a client holds outside of its heap.
  * `Holdings.Step`, `Holdings.Flagging`: what a client may do, one operation at a time.
  * `Holdings.Balanced`: each count is the number of references that there are.
  * `Step.balanced`, `Flagging.balanced`: an operation keeps the counts right, and the
    accounts in order.
-/
import Tenure.Proofs.ReferenceCounts

namespace Tenure

/-- A store, with the cells and the references that a client holds outside of its heap. -/
structure Holdings where
  store : Store
  cells : List Cell := []
  /-- References that are in no cell. -/
  handles : List ValueId := []

/-- Where a client finds a cell. -/
inductive Place
  | heap (p : Address)
  | outside (i : Nat)
  deriving DecidableEq

namespace Holdings

/-- The cell at a place. -/
def get? (o : Holdings) : Place → Option Cell
  | .heap p => o.store.heap.get? p
  | .outside i => o.cells[i]?

/-- Replaces the cell at a place. -/
def put (o : Holdings) : Place → Cell → Holdings
  | .heap p, c => { o with store := o.store.mapHeap (·.put p c) }
  | .outside i, c => { o with cells := o.cells.set i c }

/-- How many references to a value the client holds outside of the heap. -/
def outside (o : Holdings) (v : ValueId) : Nat := usesIn v o.cells + o.handles.count v

/-- What a client may do.  A payload that is written brings its own reference along, which was one
    of the handles before. -/
inductive Step : Holdings → Holdings → Prop
  | newValue (o : Holdings) (value : ExternalValue) :
    Step o
      { o with store := (o.store.newValue value).1, handles := (o.store.newValue value).2 :: o.handles }
  /-- A further handle for a value that is held, be it by a handle or by a cell. -/
  | retain {o : Holdings} {v : ValueId} :
    0 < o.store.heap.uses v + o.outside v →
      Step o { o with store := o.store.retain v, handles := v :: o.handles }
  | release {o : Holdings} {v : ValueId} {rest : List ValueId} :
    o.handles.Perm (v :: rest) → Step o { o with store := o.store.release v, handles := rest }
  | newCell {o : Holdings} {car cdr : Slot} {rest : List ValueId} :
    o.handles.Perm (car.value?.toList ++ (cdr.value?.toList ++ rest)) →
      Step o { o with cells := o.cells ++ [.cons car cdr], handles := rest }
  | set {o : Holdings} {x : Place} {c : Cell} (half : Half) {payload : Slot} {rest : List ValueId} :
    o.get? x = some c → o.handles.Perm (payload.value?.toList ++ rest) →
      Step o
        (put { o with store := (o.store.storeSlot c half payload).1, handles := rest } x
          (o.store.storeSlot c half payload).2)
  /-- A payload of the same kind replaces the one that is there; another is given up. -/
  | overwrite {o : Holdings} {x : Place} {c d : Cell} (half : Half) {payload : Slot}
    {rest : List ValueId} :
    o.get? x = some c → o.handles.Perm (payload.value?.toList ++ rest) →
      (o.store.overwriteSlot c half payload).2.getD c = d →
      Step o
        (put { o with store := (o.store.overwriteSlot c half payload).1, handles := rest } x d)
  | copySlot {o : Holdings} {x y : Place} {c d : Cell} (half half' : Half) :
    o.get? x = some c → o.get? y = some d →
      Step o
        (put { o with store := (o.store.copySlot c half (d.slot half')).1 } x
          (o.store.copySlot c half (d.slot half')).2)
  | copyCell {o : Holdings} {x y : Place} {c d : Cell} :
    o.get? x = some c → o.get? y = some d → x ≠ y →
      Step o (put { o with store := (o.store.copyCell c d).1 } x (o.store.copyCell c d).2)
  | cloneCell {o : Holdings} {x : Place} {c : Cell} :
    o.get? x = some c →
      Step o
        { o with store := (o.store.cloneCell c).1, cells := o.cells ++ [(o.store.cloneCell c).2] }
  | take {o : Holdings} {x : Place} {c : Cell} :
    o.get? x = some c → Step o { o.put x .blank with cells := (o.put x .blank).cells ++ [c] }
  | exchange {o : Holdings} {x y : Place} {c d : Cell} :
    o.get? x = some c → o.get? y = some d → Step o ((o.put x d).put y c)
  | dropCell {o : Holdings} {i : Nat} {c : Cell} :
    o.cells[i]? = some c →
      Step o { o with store := o.store.releaseCell c, cells := o.cells.eraseIdx i }
  /-- A write by address, which gives the payload up where there is no cell. -/
  | write {o : Holdings} {p : Address} {half : Half} {payload : Slot} {rest : List ValueId}
    {s' : Store} :
    o.handles.Perm (payload.value?.toList ++ rest) →
      (o.store.write p half payload = .ok () s' ∨
        ∃ fault, o.store.write p half payload = .error fault s') →
      Step o { o with store := s', handles := rest }
  | allocate {o : Holdings} {count : Nat} {r : Except HeapError Address} {s' : Store} :
    o.store.allocate count = .ok r s' → Step o { o with store := s' }
  | allocateLinked {o : Holdings} {count : Nat} {r : Except HeapError Address} {s' : Store} :
    o.store.allocateLinked count = .ok r s' → Step o { o with store := s' }
  | collect {o : Holdings} {r : Except HeapError CollectionSummary} {s' : Store} :
    o.store.collect = .ok r s' → Step o { o with store := s' }
  | clearMarks (o : Holdings) : Step o { o with store := o.store.clearMarks }
  /-- Registering, changing, leasing and taking away roots. -/
  | roots (o : Holdings) (f : RootRegistry → RootRegistry) :
    Step o { o with store := o.store.mapHeap (·.mapRoots f) }
  /-- The heap is given up, and another one made. -/
  | renew (o : Holdings) : Step o { o with store := o.store.renew }

/-- What touches the flags of cells only. -/
inductive Flagging : Holdings → Holdings → Prop
  | setFlags {o : Holdings} {x : Place} {c : Cell} (flags : Flags) :
    o.get? x = some c → Flagging o (o.put x { c with flags })
  | mark (o : Holdings) : Flagging o { o with store := o.store.mark.1 }

/-- How many references to a value there are. -/
def total (o : Holdings) (v : ValueId) : Nat := o.store.heap.uses v + o.outside v

end Holdings

/-! ## Cells that are written -/

namespace Store

variable {s s' : Store} {c d : Cell} {v : ValueId}

theorem GivesUp.exists_mapRoots (h : s.GivesUp s') : ∃ f, s'.heap = s.heap.mapRoots f := by
  obtain ⟨gone, hgone, -⟩ := h.heap
  exact ⟨_, hgone⟩

/-- A cell was replaced by another one, and the counts follow; of the heap itself only the roots may
    have changed. -/
structure Swaps (s : Store) (c : Cell) (s' : Store) (d : Cell) : Prop where
  heap : ∃ f, s'.heap = s.heap.mapRoots f
  accounts : s.Accounts s'
  count : ∀ v, s'.values.count v + c.uses v = s.values.count v + d.uses v

theorem Swaps.trans {s'' : Store} {e : Cell} (h : s.Swaps c s' d) (h' : s'.Swaps d s'' e) :
    s.Swaps c s'' e := by
  obtain ⟨f, hf⟩ := h.heap
  obtain ⟨f', hf'⟩ := h'.heap
  refine ⟨⟨f' ∘ f, by rw [hf', hf]; rfl⟩, h.accounts.trans h'.accounts, fun v => ?_⟩
  have := h.count v
  have := h'.count v
  omega

theorem swaps_copySlot (half : Half) {source : Slot} (hsource : ∀ v, source.uses v ≤ s.values.count v)
    (hc : ∀ v, c.uses v ≤ s.values.count v) :
    s.Swaps c (s.copySlot c half source).1 (s.copySlot c half source).2 := by
  rw [copySlot_eq]
  obtain ⟨f, hf⟩ := (givesUp_releaseSlot (s.retainSlot source) (c.slot half)).exists_mapRoots
  refine ⟨⟨f, hf.trans (by rw [heap_retainSlot])⟩,
    (accounts_retainSlot hsource).trans (accounts_releaseSlot _ _), fun v => ?_⟩
  have hcount : ((s.retainSlot source).releaseSlot (c.slot half)).values.count v =
      s.values.count v + source.uses v - (c.slot half).uses v :=
    (count_releaseSlot _ _).trans (by rw [count_retainSlot hsource])
  have hcell := c.uses_setSlot (v := v) half source
  have hle : (c.slot half).uses v ≤ c.uses v := c.uses_slot_le half
  have := hc v
  show ((s.retainSlot source).releaseSlot (c.slot half)).values.count v + c.uses v =
    s.values.count v + (c.setSlot half source).uses v
  omega

theorem swaps_copyCell (hroom : ∀ v, c.uses v + d.uses v ≤ s.values.count v) :
    s.Swaps c (s.copyCell c d).1 (s.copyCell c d).2 := by
  have hcar : s.Swaps c (s.copySlot c .car d.car).1 (s.copySlot c .car d.car).2 :=
    swaps_copySlot .car
      (fun v => by have := hroom v; have : d.car.uses v ≤ d.uses v := d.uses_slot_le .car; omega)
      (fun v => by have := hroom v; omega)
  have hsource : ∀ v, d.cdr.uses v ≤ (s.copySlot c .car d.car).1.values.count v := by
    intro v
    have := hroom v
    have := hcar.count v
    have : d.cdr.uses v ≤ d.uses v := d.uses_slot_le .cdr
    omega
  have htarget : ∀ v, (s.copySlot c .car d.car).2.uses v ≤
      (s.copySlot c .car d.car).1.values.count v := by
    intro v
    have := hroom v
    have := hcar.count v
    omega
  have hcdr := swaps_copySlot .cdr hsource htarget
  have hboth := hcar.trans hcdr
  -- the flags come last and hold no reference
  exact ⟨hboth.heap, hboth.accounts, hboth.count⟩

theorem cloneCell_spec (hc : ∀ v, c.uses v ≤ s.values.count v) :
    (s.cloneCell c).1.heap = s.heap ∧ s.Accounts (s.cloneCell c).1 ∧
      ∀ v, (s.cloneCell c).1.values.count v = s.values.count v + c.uses v := by
  have hcar : ∀ v, c.car.uses v ≤ s.values.count v := fun v =>
    (c.uses_slot_le .car).trans (hc v)
  have hcdr : ∀ v, c.cdr.uses v ≤ (s.retainSlot c.car).values.count v := by
    intro v
    rw [count_retainSlot hcar]
    exact ((c.uses_slot_le .cdr).trans (hc v)).trans (Nat.le_add_right _ _)
  refine ⟨?_, (accounts_retainSlot hcar).trans (accounts_retainSlot hcdr), fun v => ?_⟩
  · exact (heap_retainSlot _ _).trans (heap_retainSlot _ _)
  · refine (count_retainSlot hcdr).trans ?_
    rw [count_retainSlot hcar, Nat.add_assoc, Cell.uses]

end Store

namespace Holdings

variable {o o' : Holdings} {x y : Place} {c d : Cell} {v : ValueId}

/-! ## Places -/

theorem total_put (hx : o.get? x = some c) (d : Cell) :
    (o.put x d).total v + c.uses v = o.total v + d.uses v := by
  cases x with
  | heap p =>
    have hput := Heap.uses_put (v := v) hx d
    simp only [total, outside, put, Store.mapHeap]
    omega
  | outside i =>
    have hset := usesIn_set (v := v) hx d
    simp only [total, outside, put]
    omega

theorem uses_le_total (hx : o.get? x = some c) : c.uses v ≤ o.total v := by
  have := total_put (v := v) hx .blank
  rw [Cell.uses_blank] at this
  omega

theorem get?_put_of_ne (hxy : x ≠ y) (d : Cell) : (o.put x d).get? y = o.get? y := by
  cases x with
  | heap p =>
    cases y with
    | heap q => exact Heap.get?_put_of_ne (fun h => hxy (by rw [h])) d
    | outside j => rfl
  | outside i =>
    cases y with
    | heap q => rfl
    | outside j => exact List.getElem?_set_ne fun h => hxy (by rw [h])

theorem get?_put_self (hx : o.get? x = some c) (d : Cell) : (o.put x d).get? x = some d := by
  cases x with
  | heap p => exact Heap.get?_put_self hx d
  | outside i => exact List.getElem?_set_self (List.getElem?_eq_some_iff.1 hx).1

/-- Two cells at different places are counted apart. -/
theorem uses_add_uses_le_total (hx : o.get? x = some c) (hy : o.get? y = some d) (hxy : x ≠ y) :
    c.uses v + d.uses v ≤ o.total v := by
  have hput := total_put (v := v) hx .blank
  have hle := uses_le_total (v := v) ((get?_put_of_ne hxy .blank).trans hy)
  rw [Cell.uses_blank] at hput
  omega

theorem wellFormed_put (hh : o.store.heap.WellFormed) (x : Place) (c : Cell) :
    (o.put x c).store.heap.WellFormed := by
  cases x with
  | heap p => exact hh.put p c
  | outside i => exact hh

theorem accounts_put (o : Holdings) (x : Place) (c : Cell) : o.store.Accounts (o.put x c).store := by
  cases x with
  | heap p => exact o.store.accounts_mapHeap (·.put p c)
  | outside i => exact .refl _

@[simp] theorem values_put (o : Holdings) (x : Place) (c : Cell) :
    (o.put x c).store.values = o.store.values := by
  cases x <;> rfl

end Holdings

theorem Store.Accounts.put {s : Store} {o : Holdings} (h : s.Accounts o.store) (x : Place) (c : Cell) :
    s.Accounts (o.put x c).store :=
  h.trans (o.accounts_put x c)

namespace Holdings

variable {o o' : Holdings} {x y : Place} {c d : Cell} {v : ValueId}

/-- The count of each value is the number of references to it that there are. -/
def Balanced (o : Holdings) : Prop := o.store.Balanced o.outside

theorem Balanced.count (ho : o.Balanced) (v : ValueId) : o.store.values.count v = o.total v :=
  Store.Balanced.count ho v

/-! ## One operation -/

/-- A cell is replaced by another one, and the counts follow. -/
theorem Balanced.put (ho : o.Balanced) (hx : o.get? x = some c) {s' : Store} {rest : List ValueId}
    (hheap : ∃ f, s'.heap = o.store.heap.mapRoots f)
    (hcount : ∀ v, s'.values.count v + c.uses v + o.handles.count v =
      o.store.values.count v + d.uses v + rest.count v) :
    (Holdings.put { o with store := s', handles := rest } x d).Balanced := by
  obtain ⟨f, hf⟩ := hheap
  have hx' : Holdings.get? { o with store := s', handles := rest } x = some c := by
    cases x with
    | heap p => exact (congrArg (Heap.get? · p) hf).trans hx
    | outside i => exact hx
  refine ⟨wellFormed_put (hf ▸ ho.wellFormed.mapRoots f) x d, fun v => ?_⟩
  have hput := total_put (v := v) hx' d
  have hbefore := ho.count v
  have hafter := hcount v
  have huses : s'.heap.uses v = o.store.heap.uses v := by rw [hf, Heap.uses_mapRoots]
  have htotal : total { o with store := s', handles := rest } v =
      s'.heap.uses v + (usesIn v o.cells + rest.count v) := rfl
  have htotal' : o.total v = o.store.heap.uses v + (usesIn v o.cells + o.handles.count v) := rfl
  rw [values_put]
  show _ = (Holdings.put { o with store := s', handles := rest } x d).total v
  show s'.values.count v = _
  omega

/-- A payload that a client writes was one of its handles. -/
theorem count_of_perm {payload : Slot} {handles rest : List ValueId}
    (hp : handles.Perm (payload.value?.toList ++ rest)) (v : ValueId) :
    handles.count v = payload.uses v + rest.count v := by
  rw [hp.count_eq, List.count_append, Slot.uses]

theorem Balanced.payload_le (ho : o.Balanced) {payload : Slot} {rest : List ValueId}
    (hp : o.handles.Perm (payload.value?.toList ++ rest)) (v : ValueId) :
    payload.uses v ≤ o.store.values.count v := by
  have hcount := ho.count v
  have hhandles := count_of_perm hp v
  simp only [total, outside] at hcount
  omega

theorem Balanced.set (ho : o.Balanced) (hx : o.get? x = some c) (half : Half) {payload : Slot}
    {rest : List ValueId} (hp : o.handles.Perm (payload.value?.toList ++ rest)) :
    (Holdings.put { o with store := (o.store.storeSlot c half payload).1, handles := rest } x
        (o.store.storeSlot c half payload).2).Balanced ∧
      o.store.Accounts (o.store.storeSlot c half payload).1 := by
  refine ⟨ho.put hx (Store.givesUp_releaseSlot _ _).exists_mapRoots fun v => ?_,
    Store.accounts_releaseSlot _ _⟩
  have hcount : (o.store.storeSlot c half payload).1.values.count v =
      o.store.values.count v - (c.slot half).uses v := Store.count_releaseSlot _ _
  have hcell : (o.store.storeSlot c half payload).2.uses v + (c.slot half).uses v =
      c.uses v + payload.uses v := c.uses_store half payload
  have hle : (c.slot half).uses v ≤ c.uses v := c.uses_slot_le half
  have htotal := uses_le_total (v := v) hx
  have hhandles := count_of_perm hp v
  have := ho.count v
  omega

theorem Balanced.overwrite (ho : o.Balanced) (hx : o.get? x = some c) (half : Half) {payload : Slot}
    {rest : List ValueId} (hp : o.handles.Perm (payload.value?.toList ++ rest)) :
    (Holdings.put { o with store := (o.store.overwriteSlot c half payload).1, handles := rest } x
        ((o.store.overwriteSlot c half payload).2.getD c)).Balanced ∧
      o.store.Accounts (o.store.overwriteSlot c half payload).1 := by
  have hhandles := count_of_perm hp
  have hpayload := ho.payload_le hp
  unfold Store.overwriteSlot
  split
  · rename_i slot hslot
    have hsame : slot = payload := by
      unfold Slot.overwrite? at hslot
      split at hslot
      · exact (Option.some.inj hslot).symm
      · cases hslot
    refine ⟨ho.put hx (Store.givesUp_releaseSlot _ _).exists_mapRoots fun v => ?_,
      Store.accounts_releaseSlot _ _⟩
    have hcell := c.uses_setSlot (v := v) half slot
    have hle : (c.slot half).uses v ≤ c.uses v := c.uses_slot_le half
    have htotal := uses_le_total (v := v) hx
    have := ho.count v
    have := hhandles v
    rw [Store.count_releaseSlot, Option.getD_some]
    rw [hsame] at hcell ⊢
    omega
  · refine ⟨ho.put hx (Store.givesUp_releaseSlot _ _).exists_mapRoots fun v => ?_,
      Store.accounts_releaseSlot _ _⟩
    have := hhandles v
    have := hpayload v
    rw [Store.count_releaseSlot, Option.getD_none]
    omega

/-- Cells are replaced with the handles left alone. -/
theorem Balanced.swap (ho : o.Balanced) (hx : o.get? x = some c) {s' : Store}
    (hs : o.store.Swaps c s' d) : (Holdings.put { o with store := s' } x d).Balanced :=
  ho.put hx hs.heap fun v => by have := hs.count v; omega

theorem Balanced.swaps_copySlot (ho : o.Balanced) (hx : o.get? x = some c) (hy : o.get? y = some d)
    (half half' : Half) :
    o.store.Swaps c (o.store.copySlot c half (d.slot half')).1
      (o.store.copySlot c half (d.slot half')).2 :=
  Store.swaps_copySlot half
    (fun v => ho.count v ▸ (d.uses_slot_le half').trans (uses_le_total hy))
    (fun v => ho.count v ▸ uses_le_total hx)

theorem Balanced.swaps_copyCell (ho : o.Balanced) (hx : o.get? x = some c) (hy : o.get? y = some d)
    (hxy : x ≠ y) : o.store.Swaps c (o.store.copyCell c d).1 (o.store.copyCell c d).2 :=
  Store.swaps_copyCell fun v => ho.count v ▸ uses_add_uses_le_total hx hy hxy

/-- What the client holds outside of the heap changes, and the counts follow. -/
theorem Balanced.shift (ho : o.Balanced) {s' : Store} {cells : List Cell} {handles : List ValueId}
    (hheap : ∃ f, s'.heap = o.store.heap.mapRoots f)
    (hcount : ∀ v, s'.values.count v + usesIn v o.cells + o.handles.count v =
      o.store.values.count v + usesIn v cells + handles.count v) :
    Balanced { store := s', cells, handles } := by
  obtain ⟨f, hf⟩ := hheap
  refine ⟨hf ▸ ho.wellFormed.mapRoots f, fun v => ?_⟩
  have hbefore : o.store.values.count v =
      o.store.heap.uses v + (usesIn v o.cells + o.handles.count v) := ho.count v
  have hafter := hcount v
  show s'.values.count v = s'.heap.uses v + (usesIn v cells + handles.count v)
  rw [hf, Heap.uses_mapRoots]
  omega

theorem exists_mapRoots_id (h : Heap) : ∃ f, h = h.mapRoots f := ⟨id, rfl⟩

theorem count_cons_handle (v w : ValueId) (handles : List ValueId) :
    (w :: handles).count v = handles.count v + if v = w then 1 else 0 := by
  simp only [List.count_cons, beq_iff_eq, eq_comm (a := w)]

theorem Balanced.newValue (ho : o.Balanced) (value : ExternalValue) :
    Balanced { o with
      store := (o.store.newValue value).1, handles := (o.store.newValue value).2 :: o.handles } := by
  refine ho.shift (exists_mapRoots_id _) fun v => ?_
  have hadd : (o.store.newValue value).1.values.count v =
      o.store.values.count v + if v = (o.store.newValue value).2 then 1 else 0 :=
    Values.count_add _ _ _
  have hhandles := count_cons_handle v (o.store.newValue value).2 o.handles
  omega

theorem Balanced.retain (ho : o.Balanced) (hlive : 0 < o.total v) :
    Balanced { o with store := o.store.retain v, handles := v :: o.handles } := by
  rw [← ho.count] at hlive
  refine ho.shift (exists_mapRoots_id _) fun w => ?_
  have hretain : (o.store.retain v).values.count w =
      o.store.values.count w + if w = v then 1 else 0 := Values.count_retain hlive
  have hhandles := count_cons_handle w v o.handles
  omega

theorem Balanced.release (ho : o.Balanced) {rest : List ValueId} (hp : o.handles.Perm (v :: rest)) :
    Balanced { o with store := o.store.release v, handles := rest } := by
  refine ho.shift (Store.givesUp_release _ _).exists_mapRoots fun w => ?_
  have hrelease := o.store.count_release v w
  have hhandles := (hp.count_eq w).trans (count_cons_handle w v rest)
  have hcount := ho.count w
  simp only [total, outside] at hcount
  omega

theorem Balanced.newCell (ho : o.Balanced) {car cdr : Slot} {rest : List ValueId}
    (hp : o.handles.Perm (car.value?.toList ++ (cdr.value?.toList ++ rest))) :
    Balanced { o with cells := o.cells ++ [.cons car cdr], handles := rest } := by
  refine ho.shift (exists_mapRoots_id _) fun v => ?_
  have hcar := count_of_perm hp v
  have hcdr := count_of_perm (List.Perm.refl (cdr.value?.toList ++ rest)) v
  simp only [usesIn_append, usesIn_cons, usesIn_nil, Cell.uses_cons]
  omega

theorem Balanced.cloneCell (ho : o.Balanced) (hx : o.get? x = some c) :
    Balanced { o with
        store := (o.store.cloneCell c).1, cells := o.cells ++ [(o.store.cloneCell c).2] } ∧
      o.store.Accounts (o.store.cloneCell c).1 := by
  have hle : ∀ v, c.uses v ≤ o.store.values.count v := fun v => ho.count v ▸ uses_le_total hx
  obtain ⟨hheap, haccounts, hcount⟩ := Store.cloneCell_spec hle
  refine ⟨ho.shift ⟨id, hheap⟩ fun v => ?_, haccounts⟩
  have hclone : (o.store.cloneCell c).2 = c := rfl
  have := hcount v
  simp only [hclone, usesIn_append, usesIn_cons, usesIn_nil]
  omega

theorem Balanced.take (ho : o.Balanced) (hx : o.get? x = some c) :
    Balanced { o.put x .blank with cells := (o.put x .blank).cells ++ [c] } := by
  refine ⟨wellFormed_put ho.wellFormed x .blank, fun v => ?_⟩
  have hput := total_put (v := v) hx .blank
  have hcount := ho.count v
  simp only [total, outside, Cell.uses_blank, values_put, usesIn_append, usesIn_cons,
    usesIn_nil] at hput hcount ⊢
  omega

theorem Balanced.exchange (ho : o.Balanced) (hx : o.get? x = some c) (hy : o.get? y = some d) :
    ((o.put x d).put y c).Balanced := by
  refine ⟨wellFormed_put (wellFormed_put ho.wellFormed x d) y c, fun v => ?_⟩
  have hy' : (o.put x d).get? y = some d := by
    by_cases hxy : x = y
    · subst hxy
      exact get?_put_self hx d
    · exact (get?_put_of_ne hxy d).trans hy
  have hput := total_put (v := v) hx d
  have hput' := total_put (v := v) hy' c
  have hcount := ho.count v
  rw [values_put, values_put]
  show _ = ((o.put x d).put y c).total v
  omega

theorem Balanced.dropCell (ho : o.Balanced) {i : Nat} (hi : o.cells[i]? = some c) :
    Balanced { o with store := o.store.releaseCell c, cells := o.cells.eraseIdx i } := by
  obtain ⟨f, hf⟩ := (Store.givesUp_releaseSlot o.store c.car).exists_mapRoots
  obtain ⟨f', hf'⟩ := (Store.givesUp_releaseSlot (o.store.releaseSlot c.car) c.cdr).exists_mapRoots
  refine ho.shift ⟨f' ∘ f, hf'.trans (by rw [hf]; rfl)⟩ fun v => ?_
  have herase := usesIn_eraseIdx (v := v) hi
  have hcount : o.store.values.count v =
      o.store.heap.uses v + (usesIn v o.cells + o.handles.count v) := ho.count v
  rw [Store.count_releaseCell]
  omega

theorem Balanced.write (ho : o.Balanced) {p : Address} {half : Half} {payload : Slot}
    {rest : List ValueId} {s' : Store} (hp : o.handles.Perm (payload.value?.toList ++ rest))
    (hw : o.store.write p half payload = .ok () s' ∨
      ∃ fault, o.store.write p half payload = .error fault s') :
    Balanced { o with store := s', handles := rest } ∧ o.store.Accounts s' := by
  refine Store.balanced_write (Store.Balanced.congr ho fun v => ?_) hw
  have hhandles := count_of_perm hp v
  show usesIn v o.cells + o.handles.count v = payload.uses v + (usesIn v o.cells + rest.count v)
  omega

/-- An operation on the store that conserves references. -/
theorem Balanced.conserve (ho : o.Balanced) {s' : Store} (h : o.store.Conserves s') :
    Balanced { o with store := s' } ∧ o.store.Accounts s' :=
  h o.outside ho

/-- **An operation keeps the counts right** and the accounts in order. -/
theorem Step.balanced (h : Step o o') (ho : o.Balanced) : o'.Balanced ∧ o.store.Accounts o'.store := by
  cases h with
  | newValue value => exact ⟨ho.newValue value, Store.accounts_newValue _ _⟩
  | retain hlive => exact ⟨ho.retain hlive, Store.accounts_retain ((ho.count _).symm ▸ hlive)⟩
  | release hp => exact ⟨ho.release hp, Store.accounts_release _ _⟩
  | newCell hp => exact ⟨ho.newCell hp, .refl _⟩
  | set half hx hp =>
    obtain ⟨hb, ha⟩ := ho.set hx half hp
    exact ⟨hb, ha.put _ _⟩
  | overwrite half hx hp hd =>
    subst hd
    obtain ⟨hb, ha⟩ := ho.overwrite hx half hp
    exact ⟨hb, ha.put _ _⟩
  | copySlot half half' hx hy =>
    have hswaps := ho.swaps_copySlot hx hy half half'
    exact ⟨ho.swap hx hswaps, hswaps.accounts.put _ _⟩
  | copyCell hx hy hxy =>
    have hswaps := ho.swaps_copyCell hx hy hxy
    exact ⟨ho.swap hx hswaps, hswaps.accounts.put _ _⟩
  | cloneCell hx => exact ho.cloneCell hx
  | take hx => exact ⟨ho.take hx, accounts_put _ _ _⟩
  | exchange hx hy => exact ⟨ho.exchange hx hy, (accounts_put _ _ _).put _ _⟩
  | dropCell hi => exact ⟨ho.dropCell hi, Store.accounts_releaseCell _ _⟩
  | write hp hw => exact ho.write hp hw
  | allocate ha => exact ho.conserve (Store.conserves_allocate ha)
  | allocateLinked ha => exact ho.conserve (Store.conserves_allocateLinked ha)
  | collect hc => exact ho.conserve (Store.conserves_collect hc)
  | clearMarks =>
    exact ho.conserve (Store.conserves_mapHeap (fun hh => Heap.wellFormed_clearMarks_iff.2 hh)
      fun _ => Heap.uses_clearMarks _)
  | roots f => exact ho.conserve (Store.conserves_mapHeap (fun hh => hh.mapRoots f) fun _ => rfl)
  | renew => exact ho.conserve (Store.conserves_renew _)

theorem Flagging.balanced (h : Flagging o o') (ho : o.Balanced) :
    o'.Balanced ∧ o.store.Accounts o'.store := by
  cases h with
  | @setFlags x c flags hx =>
    have hswaps : o.store.Swaps c o.store { c with flags } := ⟨⟨id, rfl⟩, .refl _, fun _ => rfl⟩
    exact ⟨ho.swap hx hswaps, accounts_put _ _ _⟩
  | mark => exact ho.conserve (Store.conserves_mark _)

end Holdings

end Tenure
