/-
  Tenure — writing in place.

  Where a payload is written over one of its kind, or a cell is copied over another one, what is there
  is used again: a text leaves its buffer, a reference its place.  None of it can be told from giving up
  the whole of what is there and putting something fresh in its stead.

  * `Store.replaceSlot`, `Store.replaceCell`: the plain way.
  * `releaseSlot_retainSlot`: it does not matter whether a reference is taken before or after another
    one is given up, as long as neither is the last.
  * `copyCell_eq`: copying a cell over a cell gives up what was there for a fresh copy.
  * `journal_releaseCell`: the values that end with a cell are those to which it held all the
    references.
  * `overwriting_replaces`: in place or not, the cells, the counts and the ends of values are the same.
-/
import Mathlib.Data.List.Dedup
import Tenure.Proofs.Holdings

namespace Tenure

namespace Values

variable {values : Values} {v w : ValueId} {entry : Counted}

/-- The note of the end of a value. -/
def ending? (values : Values) (v : ValueId) : Option Event :=
  values.entries[v.serial]?.map (·.value.ending)

theorem ending?_recount (values : Values) (v : ValueId) (g : Nat → Nat) (w : ValueId) :
    (values.recount v g).ending? w = values.ending? w := by
  rw [ending?, getElem?_recount]
  split
  · rw [Option.map_map]
    rfl
  · rfl

theorem ext_getElem? {values values' : Values} (h : ∀ i : Nat, values.entries[i]? = values'.entries[i]?) :
    values = values' :=
  congrArg Values.mk (Array.ext_getElem? h)

/-- One reference less and one more, in either order. -/
theorem recount_comm (h : v = w → 0 < values.count v) :
    (values.recount v (· - 1)).recount w (· + 1) = (values.recount w (· + 1)).recount v (· - 1) := by
  refine ext_getElem? fun i => ?_
  simp only [getElem?_recount]
  by_cases hv : v.serial = i <;> by_cases hw : w.serial = i
  · obtain rfl : v = w := ValueId.mk.injEq .. ▸ hv.trans hw.symm
    obtain ⟨entry, he⟩ := exists_entry (h rfl)
    have hpos : 0 < entry.count := count_of_entry he ▸ h rfl
    subst hv
    simp only [↓reduceIte, he, Option.map_some, Nat.sub_add_cancel hpos, Nat.add_sub_cancel]
  · simp only [if_pos hv, if_neg hw]
  · simp only [if_neg hv, if_pos hw]
  · simp only [if_neg hv, if_neg hw]

end Values

namespace Store

variable {s : Store} {c d : Cell} {v w : ValueId}

/-! ## Taking and giving up references -/

theorem retain_finish (s : Store) (value : ExternalValue) (w : ValueId) :
    (s.finish value).retain w = (s.retain w).finish value := by
  cases value <;> rfl

/-- Giving up a reference, with the end of the value if it was the last. -/
theorem release_eq {entry : Counted} (he : s.values.entries[v.serial]? = some entry) :
    s.release v =
      if entry.count = 1 then finish entry.value { s with values := s.values.recount v (· - 1) }
      else { s with values := s.values.recount v (· - 1) } := by
  rw [release, Values.release_eq he]
  split <;> simp_all

/-- **It does not matter whether a reference is taken before or after another one is given up**, if the
    value has a further one. -/
theorem retain_release (hv : 0 < s.values.count v) (hboth : v = w → 2 ≤ s.values.count v) :
    (s.release v).retain w = (s.retain w).release v := by
  obtain ⟨entry, he⟩ := Values.exists_entry hv
  have hcomm : (s.values.recount v (· - 1)).recount w (· + 1) =
      (s.values.recount w (· + 1)).recount v (· - 1) := Values.recount_comm fun _ => hv
  rw [Values.count_of_entry he] at hboth
  by_cases hvw : v = w
  · subst hvw
    have he' : (s.retain v).values.entries[v.serial]? = some { entry with count := entry.count + 1 } := by
      show (s.values.recount v _).entries[v.serial]? = _
      rw [Values.getElem?_recount, if_pos rfl, he, Option.map_some]
    have := hboth rfl
    rw [release_eq he, release_eq he', if_neg (by omega), if_neg (by simp only; omega)]
    exact congrArg (fun values => { s with values }) hcomm
  · have hne : w.serial ≠ v.serial := fun h => hvw (ValueId.mk.injEq .. ▸ h.symm)
    have he' : (s.retain w).values.entries[v.serial]? = some entry := by
      show (s.values.recount w _).entries[v.serial]? = _
      rw [Values.getElem?_recount, if_neg hne, he]
    rw [release_eq he, release_eq he']
    split
    · rw [retain_finish]
      exact congrArg (fun values => finish entry.value { s with values }) hcomm
    · exact congrArg (fun values => { s with values }) hcomm

theorem retainSlot_releaseSlot {a b : Slot} (h : ∀ v, a.uses v + b.uses v ≤ s.values.count v) :
    (s.releaseSlot a).retainSlot b = (s.retainSlot b).releaseSlot a := by
  cases ha : a.value? with
  | none => simp only [releaseSlot, ha]
  | some v =>
    cases hb : b.value? with
    | none => simp only [retainSlot, hb]
    | some w =>
      have huses : a.uses v = 1 := by simp [Slot.uses, ha]
      have huses' : b.uses w = 1 := by simp [Slot.uses, hb]
      simp only [releaseSlot, retainSlot, ha, hb]
      refine retain_release ?_ ?_
      · have := h v
        omega
      · rintro rfl
        have := h v
        omega

/-! ## The plain way -/

/-- The whole of a slot is given up for another one. -/
def replaceSlot (c : Cell) (half : Half) (fresh : Slot) (s : Store) : Store × Cell :=
  (s.releaseSlot (c.slot half), c.setSlot half fresh)

/-- The whole of a cell is given up for another one. -/
def replaceCell (c fresh : Cell) (s : Store) : Store × Cell := (s.releaseCell c, fresh)

theorem storeSlot_eq (s : Store) (c : Cell) (half : Half) (payload : Slot) :
    s.storeSlot c half payload = s.replaceSlot c half payload := by
  rw [storeSlot, Cell.store, Slot.store_eq, replaceSlot]

/-- **Copying a cell over a cell** is giving it up for a fresh copy. -/
theorem copyCell_eq (h : ∀ v, c.uses v + d.uses v ≤ s.values.count v) :
    s.copyCell c d = (s.cloneCell d).1.replaceCell c (s.cloneCell d).2 := by
  have hcar : ∀ v, d.car.uses v ≤ s.values.count v := fun v =>
    ((d.uses_slot_le .car).trans (Nat.le_add_left _ _)).trans (h v)
  -- the cdr is copied when the car of the target has been given up
  have hcomm : ((s.retainSlot d.car).releaseSlot c.car).retainSlot d.cdr =
      ((s.retainSlot d.car).retainSlot d.cdr).releaseSlot c.car := by
    refine retainSlot_releaseSlot fun v => ?_
    have hc : c.car.uses v ≤ c.uses v := c.uses_slot_le .car
    have hd : d.uses v = d.car.uses v + d.cdr.uses v := rfl
    have := h v
    rw [count_retainSlot hcar]
    omega
  simp only [copyCell, copySlot_eq, replaceCell, cloneCell, releaseCell]
  rw [show (c.setSlot .car d.car).slot .cdr = c.cdr from rfl, show c.slot .car = c.car from rfl, hcomm]
  rfl

/-! ## The values that end -/

theorem ending?_releaseSlot (s : Store) (a : Slot) (w : ValueId) :
    (s.releaseSlot a).values.ending? w = s.values.ending? w := by
  unfold releaseSlot
  split
  · rename_i v hv
    cases he : s.values.entries[v.serial]? with
    | none => rw [values_release, Values.release_of_unknown he]
    | some entry => rw [values_release, Values.release_eq he, Values.ending?_recount]
  · rfl

theorem ending?_retainSlot (s : Store) (a : Slot) (w : ValueId) :
    (s.retainSlot a).values.ending? w = s.values.ending? w := by
  unfold retainSlot
  split
  · exact Values.ending?_recount _ _ _ _
  · rfl

@[simp] theorem journal_retainSlot (s : Store) (a : Slot) : (s.retainSlot a).journal = s.journal := by
  unfold retainSlot
  split <;> rfl

/-- A value ends with a slot that holds its last reference. -/
theorem journal_releaseSlot (s : Store) (a : Slot) :
    (s.releaseSlot a).journal.toList = s.journal.toList ++
      (a.value?.toList.filter (s.values.count · == 1)).filterMap s.values.ending? := by
  unfold releaseSlot
  cases ha : a.value? with
  | none => simp
  | some v =>
    cases he : s.values.entries[v.serial]? with
    | none => simp [release, Values.release_of_unknown he, Values.count_of_unknown he]
    | some entry =>
      have hcount := Values.count_of_entry he
      have hending : s.values.ending? v = some entry.value.ending := by rw [Values.ending?, he]; rfl
      by_cases hlast : entry.count = 1
      · simp [release_eq he, hlast, hcount, hending, journal_finish]
      · simp [release_eq he, hlast, hcount]

/-- **The values that end with a cell** are those to which it holds all the references. -/
theorem journal_releaseCell (h : ∀ v, c.uses v ≤ s.values.count v) :
    (s.releaseCell c).journal.toList = s.journal.toList ++
      (c.values.dedup.filter fun v => s.values.count v == c.uses v).filterMap s.values.ending? := by
  have hsame : (s.releaseSlot c.car).values.ending? = s.values.ending? :=
    funext (ending?_releaseSlot s c.car)
  rw [releaseCell, journal_releaseSlot, journal_releaseSlot, hsame, List.append_assoc,
    ← List.filterMap_append]
  refine congrArg (fun ended : List ValueId => s.journal.toList ++ ended.filterMap s.values.ending?) ?_
  simp only [count_releaseSlot, Cell.values]
  unfold Cell.uses Slot.uses at h ⊢
  cases hcar : c.car.value? with
  | none =>
    cases hcdr : c.cdr.value? with
    | none => rfl
    | some b => simp [List.filter_cons]
  | some a =>
    cases hcdr : c.cdr.value? with
    | none => simp [List.filter_cons]
    | some b =>
      by_cases hab : a = b
      · subst hab
        have htwo : 2 ≤ s.values.count a := by simpa [hcar, hcdr] using h a
        have hfirst : s.values.count a ≠ 1 := by omega
        have hboth : s.values.count a - 1 = 1 ↔ s.values.count a = 2 := by omega
        simp [hfirst, hboth, List.filter_cons]
      · have hba : b ≠ a := fun h => hab h.symm
        by_cases hlast : s.values.count a = 1 <;>
          simp [hab, hba, hlast, List.filter_cons, List.count_cons]

/-- The values that end when a cell is copied over a cell. -/
theorem journal_copyCell (h : ∀ v, c.uses v + d.uses v ≤ s.values.count v) :
    (s.copyCell c d).1.journal.toList = s.journal.toList ++
      (c.values.dedup.filter fun v => s.values.count v + d.uses v == c.uses v).filterMap
        s.values.ending? := by
  obtain ⟨-, -, hcount⟩ := cloneCell_spec fun v => (Nat.le_add_left _ _).trans (h v)
  have hending : (s.cloneCell d).1.values.ending? = s.values.ending? := funext fun v => by
    rw [cloneCell, ending?_retainSlot, ending?_retainSlot]
  have hjournal : (s.cloneCell d).1.journal = s.journal := by
    rw [cloneCell, journal_retainSlot, journal_retainSlot]
  rw [copyCell_eq h, replaceCell, journal_releaseCell fun v => ?_, hending, hjournal]
  · simp only [hcount]
  · rw [hcount]
    exact ((Nat.le_add_right _ _).trans (h v)).trans (Nat.le_add_right _ _)

end Store

namespace Holdings

variable {o : Holdings} {x y : Place} {c d : Cell}

/-- A store and a cell come into the places of those that they were made from. -/
def adopt (o : Holdings) (x : Place) (written : Store × Cell) : Holdings :=
  put { o with store := written.1 } x written.2

theorem get?_adopt (written : Store × Cell) (hheap : ∃ f, written.1.heap = o.store.heap.mapRoots f)
    (hx : o.get? x = some c) : (o.adopt x written).get? x = some written.2 ∧
      ∀ z, z ≠ x → (o.adopt x written).get? z = o.get? z := by
  obtain ⟨f, hf⟩ := hheap
  have hsame : ∀ z, Holdings.get? { o with store := written.1 } z = o.get? z := by
    intro z
    cases z with
    | heap p => exact (congrArg (Heap.get? · p) hf).trans rfl
    | outside i => rfl
  refine ⟨get?_put_self ((hsame x).trans hx) _, fun z hz => ?_⟩
  rw [adopt, get?_put_of_ne (Ne.symm hz), hsame]

/-- **Overwriting is replacing.**  A cell that is copied over another one leaves the same there, flags
    included, as giving that up for a fresh copy: the copied cell and all others stay, each count
    changes by the references that come and go, and only values end to which no reference is left.
    A payload, a text or a slot that is written into one of the halves leaves the same there as giving
    that half up; the other half and the flags stay. -/
theorem overwriting_replaces (hx : o.get? x = some c) (hy : o.get? y = some d) (hxy : x ≠ y)
    (hcounted : ∀ v, c.uses v + d.uses v ≤ o.store.values.count v) :
    -- the cell at `y` is copied over the cell at `x`
    (o.store.copyCell c d = (o.store.cloneCell d).1.replaceCell c (o.store.cloneCell d).2 ∧
      (o.adopt x (o.store.copyCell c d)).get? x = some d ∧
      (o.adopt x (o.store.copyCell c d)).get? y = some d ∧
      (∀ z, z ≠ x → (o.adopt x (o.store.copyCell c d)).get? z = o.get? z) ∧
      (∀ v, (o.store.copyCell c d).1.values.count v + c.uses v =
        o.store.values.count v + d.uses v) ∧
      (o.store.copyCell c d).1.journal.toList = o.store.journal.toList ++
        (c.values.dedup.filter fun v => o.store.values.count v + d.uses v == c.uses v).filterMap
          o.store.values.ending?) ∧
    -- one of the halves of the cell at `x` is written
    ∀ half, (∀ payload, o.store.storeSlot c half payload = o.store.replaceSlot c half payload) ∧
      (∀ content, o.store.storeText c half content = o.store.replaceSlot c half (.string content)) ∧
      (∀ source, o.store.copySlot c half source =
        (o.store.retainSlot source).replaceSlot c half source) ∧
      ∀ fresh, (∃ e, (o.adopt x (o.store.replaceSlot c half fresh)).get? x = some e ∧
          e.slot half = fresh ∧ (∀ other, other ≠ half → e.slot other = c.slot other) ∧
          e.flags = c.flags) ∧
        (∀ z, z ≠ x → (o.adopt x (o.store.replaceSlot c half fresh)).get? z = o.get? z) ∧
        ∀ v, (o.store.replaceSlot c half fresh).1.values.count v + (c.slot half).uses v =
          o.store.values.count v := by
  have hcopied := Store.copyCell_eq hcounted
  have hswaps := Store.swaps_copyCell hcounted
  have hfresh : (o.store.copyCell c d).2 = d := by rw [hcopied]; rfl
  obtain ⟨hthere, hothers⟩ := get?_adopt _ hswaps.heap hx
  rw [hfresh] at hthere
  refine ⟨⟨hcopied, hthere, (hothers y hxy.symm).trans hy, hothers, fun v => ?_,
    Store.journal_copyCell hcounted⟩, fun half => ⟨Store.storeSlot_eq _ _ _, Store.storeText_eq _ _ _,
    Store.copySlot_eq _ _ _, fun fresh => ?_⟩⟩
  · have hcount := hswaps.count v
    rwa [hfresh] at hcount
  · obtain ⟨hwritten, hothers⟩ := get?_adopt (o.store.replaceSlot c half fresh)
      (Store.givesUp_releaseSlot _ _).exists_mapRoots hx
    refine ⟨⟨_, hwritten, ?_, fun other hother => ?_, Cell.flags_setSlot _ _ _⟩, hothers, fun v => ?_⟩
    · exact (Cell.slot_setSlot _ _ _ _).trans (if_pos rfl)
    · exact (Cell.slot_setSlot _ _ _ _).trans (if_neg hother)
    · have hle : (c.slot half).uses v ≤ c.uses v := c.uses_slot_le half
      have hroom := hcounted v
      have hreleased : (o.store.replaceSlot c half fresh).1.values.count v =
        o.store.values.count v - (c.slot half).uses v := Store.count_releaseSlot _ _
      omega

/-- A cell that holds a file and a value. -/
def filed : Cell := { car := .value ⟨0⟩, cdr := .value ⟨1⟩, flags.survivedTwice := true }

/-- A cell that holds the value twice. -/
def doubled : Cell := { car := .value ⟨1⟩, cdr := .value ⟨1⟩, flags.marked := true }

/-- A client with the first of the two cells in the heap, the other one outside of it, and a further
    reference to the value. -/
def entangled : Holdings where
  store := {
    heap := { settings := .standard, active := #[filed] }
    values := ⟨#[⟨.file "a", 1⟩, ⟨.plain "proc", 4⟩]⟩ }
  cells := [doubled]
  handles := [⟨1⟩]

theorem overwriting_replaces_entangled :
    entangled.get? (.heap ⟨.young 0, 0⟩) = some filed ∧ entangled.get? (.outside 0) = some doubled ∧
    (∀ v, filed.uses v + doubled.uses v ≤ entangled.store.values.count v) ∧
    (entangled.adopt (.heap ⟨.young 0, 0⟩) (entangled.store.copyCell filed doubled)).get?
      (.heap ⟨.young 0, 0⟩) = some doubled ∧
    (entangled.store.copyCell filed doubled).1.values.count ⟨0⟩ = 0 ∧
    (entangled.store.copyCell filed doubled).1.values.count ⟨1⟩ = 5 ∧
    (entangled.store.copyCell filed doubled).1.journal.toList = [.fileClosed "a"] := by
  have hcounted : ∀ v, filed.uses v + doubled.uses v ≤ entangled.store.values.count v := by
    rintro ⟨_ | _ | i⟩
    · decide
    · decide
    · simp [filed, doubled, Cell.uses]
  obtain ⟨⟨-, hthere, -, -, hcount, hjournal⟩, -⟩ :=
    overwriting_replaces (show entangled.get? (.heap ⟨.young 0, 0⟩) = some filed from rfl)
      (show entangled.get? (.outside 0) = some doubled from rfl) (fun heq => by cases heq) hcounted
  have hfile : _ + 1 = 1 := hcount ⟨0⟩
  have hvalue : _ + 1 = 6 := hcount ⟨1⟩
  refine ⟨rfl, rfl, hcounted, hthere, Nat.succ.inj hfile, Nat.succ.inj hvalue, ?_⟩
  exact hjournal.trans (by decide)

end Holdings

end Tenure
