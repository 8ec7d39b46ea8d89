/-
  Tenure — references to external values.

  What the functions that retain and release references do to the counts, and to the
  journal, which notes the end of each value.

  * `Cell.uses`, `usesIn`: how many slots hold a reference to a value.
  * `Store.Settled`: the journal has noted the ends of just the values without references.
  * `Store.Accounts`: what all of these functions keep: a settled journal, the values, and
    that a value without references never has one again.
  * `count_releaseCells`, `accounts_releaseCells`: giving up what the cells of a buffer hold.
-/
import Mathlib.Algebra.Ring.Nat
import Mathlib.Data.List.Perm.Basic
import Tenure.Proofs.ReleasedReferences

namespace Tenure

/-! ## Slots that hold a value -/

/-- How many references to a value a slot holds. -/
def Slot.uses (v : ValueId) (s : Slot) : Nat := s.value?.toList.count v

/-- How many references to a value a cell holds. -/
def Cell.uses (v : ValueId) (c : Cell) : Nat := c.car.uses v + c.cdr.uses v

/-- How many references to a value some cells hold. -/
def usesIn (v : ValueId) (cells : List Cell) : Nat := (cells.map (·.uses v)).sum

variable {v : ValueId}

@[simp] theorem Slot.uses_mapRef (f : Address → Address) (s : Slot) :
    (s.mapRef f).uses v = s.uses v := by
  cases s <;> rfl

theorem Slot.uses_eq_zero {s : Slot} (h : s.value? = none) : s.uses v = 0 := by
  rw [uses, h]
  rfl

@[simp] theorem Slot.uses_value (w : ValueId) :
    (Slot.value w).uses v = if v = w then 1 else 0 := by
  show [w].count v = _
  simp only [List.count_singleton, beq_iff_eq, eq_comm (a := w)]

@[simp] theorem Cell.uses_blank : Cell.blank.uses v = 0 := rfl

@[simp] theorem Cell.uses_cons (car cdr : Slot) :
    (Cell.cons car cdr).uses v = car.uses v + cdr.uses v := rfl

theorem Cell.uses_setSlot (c : Cell) (half : Half) (s : Slot) :
    (c.setSlot half s).uses v + (c.slot half).uses v = c.uses v + s.uses v := by
  cases half <;> simp only [uses, setSlot, slot] <;> omega

theorem Cell.uses_store (c : Cell) (half : Half) (s : Slot) :
    (c.store half s).uses v + (c.slot half).uses v = c.uses v + s.uses v := by
  rw [store, Slot.store_eq]
  exact c.uses_setSlot half s

theorem Cell.uses_slot_le (c : Cell) (half : Half) : (c.slot half).uses v ≤ c.uses v := by
  cases half
  · exact Nat.le_add_right _ _
  · exact Nat.le_add_left _ _

@[simp] theorem usesIn_nil : usesIn v [] = 0 := rfl

@[simp] theorem usesIn_cons (c : Cell) (cells : List Cell) :
    usesIn v (c :: cells) = c.uses v + usesIn v cells := by
  simp [usesIn]

@[simp] theorem usesIn_append (cells cells' : List Cell) :
    usesIn v (cells ++ cells') = usesIn v cells + usesIn v cells' := by
  simp [usesIn]

theorem usesIn_perm {cells cells' : List Cell} (h : cells.Perm cells') :
    usesIn v cells = usesIn v cells' :=
  (h.map _).sum_nat

theorem usesIn_map {f : Cell → Cell} (hf : ∀ c, (f c).uses v = c.uses v) (cells : List Cell) :
    usesIn v (cells.map f) = usesIn v cells := by
  rw [usesIn, List.map_map]
  exact congrArg List.sum (List.map_congr_left fun c _ => hf c)

theorem usesIn_set {cells : List Cell} {i : Nat} {c : Cell} (hi : cells[i]? = some c) (d : Cell) :
    usesIn v (cells.set i d) + c.uses v = usesIn v cells + d.uses v := by
  obtain ⟨hlt, rfl⟩ := List.getElem?_eq_some_iff.1 hi
  obtain ⟨before, behind, hcells, -, hset⟩ := @List.exists_of_set _ i d cells hlt
  have huses := congrArg (usesIn v) hcells
  rw [hset]
  simp only [usesIn_append, usesIn_cons] at huses ⊢
  omega

theorem usesIn_eraseIdx {cells : List Cell} {i : Nat} {c : Cell} (hi : cells[i]? = some c) :
    usesIn v (cells.eraseIdx i) + c.uses v = usesIn v cells := by
  obtain ⟨hlt, rfl⟩ := List.getElem?_eq_some_iff.1 hi
  rw [← usesIn_perm (List.getElem_cons_eraseIdx_perm hlt), usesIn_cons]
  omega

/-! ## The ends of values -/

/-- The note of the end of a value. -/
def ExternalValue.ending : ExternalValue → Event
  | .plain name => .valueDestroyed name
  | .owner name _ => .valueDestroyed name
  | .file path => .fileClosed path

/-- Whether an event is the end of a value. -/
def Event.isEnding : Event → Bool
  | .valueDestroyed _ | .fileClosed _ => true
  | _ => false

theorem ExternalValue.isEnding_ending (value : ExternalValue) : value.ending.isEnding = true := by
  cases value <;> rfl

/-- The notes of the ends of some values, those without references. -/
def endings (entries : List Counted) : List Event :=
  (entries.filter (·.count = 0)).map (·.value.ending)

@[simp] theorem endings_append (entries entries' : List Counted) :
    endings (entries ++ entries') = endings entries ++ endings entries' := by
  simp [endings]

theorem endings_cons (entry : Counted) (entries : List Counted) :
    endings (entry :: entries) =
      (if entry.count = 0 then [entry.value.ending] else []) ++ endings entries := by
  by_cases h : entry.count = 0 <;> simp [endings, h]

namespace Values

variable {values : Values} {w : ValueId} {entry : Counted}

theorem count_of_entry (he : values.entries[v.serial]? = some entry) :
    values.count v = entry.count := by
  rw [count, he]

theorem count_of_unknown (he : values.entries[v.serial]? = none) : values.count v = 0 := by
  rw [count, he]

theorem exists_entry (h : 0 < values.count v) : ∃ entry, values.entries[v.serial]? = some entry := by
  cases he : values.entries[v.serial]? with
  | none =>
    rw [count_of_unknown he] at h
    cases h
  | some entry => exact ⟨entry, rfl⟩

/-- The values with one of the counts changed. -/
def recount (values : Values) (v : ValueId) (g : Nat → Nat) : Values :=
  ⟨values.entries.modify v.serial fun entry => { entry with count := g entry.count }⟩

theorem getElem?_recount (g : Nat → Nat) (i : Nat) : (values.recount v g).entries[i]? =
    if v.serial = i then values.entries[i]?.map fun e => { e with count := g e.count }
    else values.entries[i]? :=
  Array.getElem?_modify

theorem count_recount (he : values.entries[v.serial]? = some entry) (g : Nat → Nat) :
    (values.recount v g).count w = if w = v then g (values.count v) else values.count w := by
  by_cases hid : w = v
  · subst hid
    rw [if_pos rfl, count_of_entry he]
    have hnew : (values.recount w g).entries[w.serial]? =
        some { entry with count := g entry.count } := by
      rw [getElem?_recount, if_pos rfl, he]
      rfl
    exact count_of_entry hnew
  · have hne : v.serial ≠ w.serial := fun h => hid (ValueId.mk.injEq .. ▸ h.symm)
    rw [if_neg hid, count, getElem?_recount, if_neg hne, count]

/-- The list of values before and after one of the counts has changed. -/
theorem recount_split (he : values.entries[v.serial]? = some entry) (g : Nat → Nat) :
    ∃ before behind, values.entries.toList = before ++ entry :: behind ∧
      (values.recount v g).entries.toList =
        before ++ { entry with count := g entry.count } :: behind := by
  have he' : values.entries.toList[v.serial]? = some entry := by simpa using he
  obtain ⟨hlt, hget⟩ := List.getElem?_eq_some_iff.1 he'
  obtain ⟨before, behind, hlist, -, hset⟩ :=
    @List.exists_of_set _ v.serial { entry with count := g entry.count } _ hlt
  rw [hget] at hlist
  refine ⟨before, behind, hlist, ?_⟩
  rw [← hset, recount, Array.toList_modify, List.modify_eq_set_getElem?, he']
  rfl

theorem retain_eq (values : Values) (v : ValueId) : values.retain v = values.recount v (· + 1) := rfl

theorem release_eq (he : values.entries[v.serial]? = some entry) :
    values.release v =
      (values.recount v (· - 1), if entry.count = 1 then some entry.value else none) := by
  rw [release, he]
  rfl

theorem release_of_unknown (he : values.entries[v.serial]? = none) :
    values.release v = (values, none) := by
  rw [release, he]

theorem count_release (values : Values) (v w : ValueId) :
    (values.release v).1.count w = values.count w - if w = v then 1 else 0 := by
  cases he : values.entries[v.serial]? with
  | none =>
    rw [release_of_unknown he]
    split
    · rename_i hid
      rw [hid, count_of_unknown he]
    · rfl
  | some entry =>
    rw [release_eq he, count_recount he]
    split
    · rename_i hid
      rw [hid]
    · rfl

theorem count_retain (h : 0 < values.count v) :
    (values.retain v).count w = values.count w + if w = v then 1 else 0 := by
  obtain ⟨entry, he⟩ := exists_entry h
  rw [retain_eq, count_recount he]
  split
  · rename_i hid
    rw [hid]
  · rfl

theorem count_add (values : Values) (value : ExternalValue) (w : ValueId) :
    (values.add value).1.count w = values.count w + if w = (values.add value).2 then 1 else 0 := by
  obtain ⟨i⟩ := w
  simp only [add, ValueId.mk.injEq]
  split
  · rename_i hi
    have hnew : (values.entries.push ⟨value, 1⟩)[i]? = some ⟨value, 1⟩ := by simp [hi]
    have hfree : values.entries[i]? = none := by simp [hi]
    refine (count_of_entry hnew).trans ?_
    rw [count_of_unknown (by exact hfree)]
  · rename_i hi
    have hold : (values.entries.push ⟨value, 1⟩)[i]? = values.entries[i]? := by
      rw [Array.getElem?_push, if_neg hi]
    simp only [count, hold, Nat.add_zero]

end Values

/-! ## Stores -/

namespace Store

/-- The journal has noted the ends of just the values without references, in some order. -/
def Settled (s : Store) : Prop :=
  (s.journal.toList.filter (·.isEnding)).Perm (endings s.values.entries.toList)

/-- Nothing is wrong with the accounts afterwards that was not before: the ends of values are noted
    when they come, the values are the same, and those that have ended have ended for good. -/
structure Accounts (s s' : Store) : Prop where
  settled : s.Settled → s'.Settled
  same : ∀ (i : Nat) (entry : Counted), s.values.entries[i]? = some entry →
    ∃ entry', s'.values.entries[i]? = some entry' ∧ entry'.value = entry.value ∧
      (entry.count = 0 → entry'.count = 0)

variable {s s' s'' : Store}

theorem Accounts.of_eq (hvalues : s'.values = s.values)
    (hjournal : s'.journal.toList.filter (·.isEnding) = s.journal.toList.filter (·.isEnding)) :
    s.Accounts s' where
  settled h := by rw [Settled, hvalues, hjournal]; exact h
  same i entry h := ⟨entry, by rw [hvalues, h], rfl, fun h => h⟩

theorem Accounts.refl (s : Store) : s.Accounts s := .of_eq rfl rfl

theorem Accounts.trans (h : s.Accounts s') (h' : s'.Accounts s'') : s.Accounts s'' where
  settled hs := h'.settled (h.settled hs)
  same i entry hi := by
    obtain ⟨entry', hi', hvalue, hcount⟩ := h.same i entry hi
    obtain ⟨entry'', hi'', hvalue', hcount'⟩ := h'.same i entry' hi'
    exact ⟨entry'', hi'', hvalue'.trans hvalue, fun h => hcount' (hcount h)⟩

theorem accounts_log (s : Store) {event : Event} (he : event.isEnding = false) :
    s.Accounts (s.log event) :=
  .of_eq rfl (by simp [log, he])

theorem accounts_mapHeap (s : Store) (f : Heap → Heap) : s.Accounts (s.mapHeap f) := .of_eq rfl rfl

/-! ## One reference -/

@[simp] theorem values_finish (s : Store) (value : ExternalValue) :
    (s.finish value).values = s.values := by
  cases value <;> rfl

theorem journal_finish (s : Store) (value : ExternalValue) :
    (s.finish value).journal = s.journal.push value.ending := by
  cases value <;> rfl

theorem values_release (s : Store) (v : ValueId) : (s.release v).values = (s.values.release v).1 := by
  unfold release
  split
  · rename_i values hv
    rw [hv]
  · rename_i values value hv
    rw [hv, values_finish]

/-- **The end of a value is noted** when its last reference goes. -/
theorem accounts_release (s : Store) (v : ValueId) : s.Accounts (s.release v) := by
  cases he : s.values.entries[v.serial]? with
  | none =>
    have hs : s.release v = s := by rw [release, Values.release_of_unknown he]
    rw [hs]
    exact .refl s
  | some entry =>
    have hvalues : (s.release v).values = s.values.recount v (· - 1) := by
      rw [values_release, Values.release_eq he]
    refine ⟨fun hs => ?_, fun i old hi => ?_⟩
    · obtain ⟨before, behind, hlist, hlist'⟩ := Values.recount_split he (· - 1)
      rw [Settled, hvalues, hlist', endings_append, endings_cons]
      rw [Settled, hlist, endings_append, endings_cons] at hs
      by_cases hlast : entry.count = 1
      · -- the note comes last in the journal, the value where it was made in the list of values
        have hjournal : (s.release v).journal = s.journal.push entry.value.ending := by
          rw [release, Values.release_eq he, if_pos hlast]
          exact journal_finish _ _
        have hnote : [entry.value.ending].filter (·.isEnding) = [entry.value.ending] := by
          simp [entry.value.isEnding_ending]
        rw [if_neg (by omega), List.nil_append] at hs
        rw [if_pos (by simp [hlast]), hjournal, Array.toList_push, List.filter_append, hnote]
        refine (hs.append_right _).trans ?_
        rw [List.append_assoc]
        exact List.Perm.append_left _ List.perm_append_comm
      · have hjournal : (s.release v).journal = s.journal := by
          rw [release, Values.release_eq he, if_neg hlast]
        have hzero : (entry.count - 1 = 0) = (entry.count = 0) := by
          rw [eq_iff_iff]
          omega
        rw [hjournal]
        simpa only [hzero] using hs
    · rw [hvalues, Values.getElem?_recount]
      split
      · exact ⟨{ old with count := old.count - 1 }, by rw [hi]; rfl, rfl, fun h => by rw [h]⟩
      · exact ⟨old, hi, rfl, fun h => h⟩

theorem accounts_retain (h : 0 < s.values.count v) : s.Accounts (s.retain v) := by
  obtain ⟨entry, he⟩ := Values.exists_entry h
  rw [Values.count_of_entry he] at h
  have hvalues : (s.retain v).values = s.values.recount v (· + 1) := rfl
  refine ⟨fun hs => ?_, fun i old hi => ?_⟩
  · obtain ⟨before, behind, hlist, hlist'⟩ := Values.recount_split he (· + 1)
    rw [Settled, hlist, endings_append, endings_cons, if_neg (by omega)] at hs
    rw [Settled, hvalues, hlist', endings_append, endings_cons, if_neg (Nat.succ_ne_zero _)]
    exact hs
  · rw [hvalues, Values.getElem?_recount]
    split
    · rename_i hid
      rw [← hid, he] at hi
      cases hi
      exact ⟨{ entry with count := entry.count + 1 }, by rw [← hid, he]; rfl, rfl, fun h0 => by omega⟩
    · exact ⟨old, hi, rfl, fun h => h⟩

theorem accounts_newValue (s : Store) (value : ExternalValue) : s.Accounts (s.newValue value).1 where
  settled hs := by
    rw [Settled] at hs ⊢
    simp only [newValue, Values.add, Array.toList_push, endings_append]
    exact hs.trans (by simp [endings])
  same i entry hi := by
    refine ⟨entry, ?_, rfl, fun h => h⟩
    have hlt : i < s.values.entries.size := (Array.getElem?_eq_some_iff.1 hi).1
    simp only [newValue, Values.add, Array.getElem?_push]
    rw [if_neg (by omega), hi]

theorem count_release (s : Store) (v w : ValueId) :
    (s.release v).values.count w = s.values.count w - if w = v then 1 else 0 := by
  rw [values_release, Values.count_release]

/-! ## Slots, cells and buffers -/

theorem count_releaseSlot (s : Store) (slot : Slot) :
    (s.releaseSlot slot).values.count v = s.values.count v - slot.uses v := by
  unfold releaseSlot
  cases slot with
  | value w => exact (s.count_release w v).trans (by rw [Slot.uses_value])
  | _ => rfl

theorem accounts_releaseSlot (s : Store) (slot : Slot) : s.Accounts (s.releaseSlot slot) := by
  unfold releaseSlot
  split
  · exact accounts_release s _
  · exact .refl s

theorem count_retainSlot {slot : Slot} (h : ∀ v, slot.uses v ≤ s.values.count v) :
    (s.retainSlot slot).values.count v = s.values.count v + slot.uses v := by
  unfold retainSlot
  cases slot with
  | value w =>
    have hlive : 0 < s.values.count w := by simpa [Nat.one_le_iff_ne_zero, Nat.pos_iff_ne_zero] using h w
    exact (Values.count_retain hlive).trans (by rw [Slot.uses_value])
  | _ => rfl

theorem accounts_retainSlot {slot : Slot} (h : ∀ v, slot.uses v ≤ s.values.count v) :
    s.Accounts (s.retainSlot slot) := by
  unfold retainSlot
  cases slot with
  | value w =>
    have hlive : 0 < s.values.count w := by simpa [Nat.one_le_iff_ne_zero, Nat.pos_iff_ne_zero] using h w
    exact accounts_retain hlive
  | _ => exact .refl s

@[simp] theorem heap_retainSlot (s : Store) (slot : Slot) : (s.retainSlot slot).heap = s.heap := by
  unfold retainSlot
  split <;> rfl

theorem count_releaseCell (s : Store) (c : Cell) :
    (s.releaseCell c).values.count v = s.values.count v - c.uses v := by
  rw [releaseCell, count_releaseSlot, count_releaseSlot, Nat.sub_sub, Cell.uses]

theorem accounts_releaseCell (s : Store) (c : Cell) : s.Accounts (s.releaseCell c) :=
  (accounts_releaseSlot s c.car).trans (accounts_releaseSlot _ c.cdr)

/-- **Giving up the cells of a buffer** takes as many references from each value as they held. -/
theorem count_releaseCells (s : Store) (cells : Array Cell) :
    (s.releaseCells cells).values.count v = s.values.count v - usesIn v cells.toList := by
  rw [releaseCells, ← Array.foldl_toList]
  induction cells.toList generalizing s with
  | nil => rfl
  | cons c rest ih => rw [List.foldl_cons, ih, count_releaseCell, usesIn_cons, Nat.sub_sub]

theorem accounts_releaseCells (s : Store) (cells : Array Cell) : s.Accounts (s.releaseCells cells) := by
  rw [releaseCells, ← Array.foldl_toList]
  induction cells.toList generalizing s with
  | nil => exact .refl s
  | cons c rest ih => exact (accounts_releaseCell s c).trans (ih _)

end Store

end Tenure
