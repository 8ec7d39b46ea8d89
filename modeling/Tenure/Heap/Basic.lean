/-
  Tenure — the heap.

  * `Heap`: two young buffers that take turns, the old generation, the registered
    roots and the counters.  The young buffer that stands by is empty between
    collections.
  * `HeapError`: the reasons for which a heap refuses a request.
  * `Heap.get?`, `Heap.put`: reading and replacing the cell at an address.  Only
    addresses in the active young buffer and in the old generation name cells.
  * `Heap.grow`: appends a block of blank cells to the active young buffer.
-/
import Tenure.Address.Arithmetic
import Tenure.Counters
import Tenure.Relocation
import Tenure.Settings.Basic

namespace Tenure

/-- The reasons for which a heap refuses a request. -/
inductive HeapError
  /-- No cells, or more than a young buffer ever holds. -/
  | invalidAllocationSize (requested max : Nat)
  /-- Not enough room even after a collection. -/
  | youngExhausted (requested available : Nat)
  /-- The old generation cannot take the cells that are due for it. -/
  | oldExhausted (live promoting capacity : Nat)
  | settings (error : SettingsError)
  deriving DecidableEq, Repr

/-- The wording of a refusal. -/
def HeapError.message : HeapError → String
  | .invalidAllocationSize requested max =>
    s!"invalid allocation size: requested {requested} cells, young generation holds at most {max}"
  | .youngExhausted requested available =>
    s!"young generation exhausted: requested {requested} cells " ++
      s!"but only {available} free after collection"
  | .oldExhausted live promoting capacity =>
    s!"heap exhausted: old generation cannot hold {live} live cells " ++
      s!"plus {promoting} promotions (capacity {capacity})"
  | .settings error => error.message

/-- A heap of cells with its roots. -/
structure Heap where
  settings : Settings
  /-- Which young buffer is active. -/
  side : Semispace := .first
  /-- The active young buffer. -/
  active : Array Cell := #[]
  /-- The young buffer that stands by. -/
  idle : Array Cell := #[]
  /-- The old generation. -/
  old : Array Cell := #[]
  roots : RootRegistry := {}
  /-- The moves of the collection that is under way. -/
  relocations : Relocation := {}
  counters : Counters := {}
  deriving Inhabited

namespace Heap

/-- An empty heap, whose root registry has the given number. -/
def make (settings : Settings) (registry : Nat) : Heap := { settings, roots := .empty registry }

/-- An empty heap, if the settings are consistent. -/
def make? (settings : Settings) (registry : Nat) : Except HeapError Heap :=
  match settings.validate with
  | .ok () => .ok (make settings registry)
  | .error error => .error (.settings error)

/-- The buffer that new cells are put into, as a space. -/
def activeBuffer (h : Heap) : Space := h.side.space

/-- The cell at an address. -/
def get? (h : Heap) (p : Address) : Option Cell :=
  match p.space with
  | .young s => if s = h.side.number then h.active[p.position]? else none
  | .old => h.old[p.position]?

/-- Whether an address names a cell now. -/
def contains (h : Heap) (p : Address) : Bool := (h.get? p).isSome

/-- Replaces the cell at an address; where there is no cell nothing changes. -/
def put (h : Heap) (p : Address) (c : Cell) : Heap :=
  match p.space with
  | .young s =>
    if s = h.side.number then { h with active := h.active.setIfInBounds p.position c } else h
  | .old => { h with old := h.old.setIfInBounds p.position c }

/-- Changes the cell at an address; where there is no cell nothing changes. -/
def modify (h : Heap) (p : Address) (f : Cell → Cell) : Heap :=
  match h.get? p with
  | some c => h.put p (f c)
  | none => h

/-- The room left in the active young buffer. -/
def room (h : Heap) : Nat := h.settings.youngCapacity - h.active.size

/-- How full the heap is. -/
def occupancy (h : Heap) : Occupancy where
  youngUsed := h.active.size
  youngCapacity := h.settings.youngCapacity
  oldUsed := h.old.size
  oldCapacity := h.settings.oldCapacity
  roots := h.roots.size

/-- Changes the roots. -/
def mapRoots (h : Heap) (f : RootRegistry → RootRegistry) : Heap := { h with roots := f h.roots }

/-- Appends blank cells to the active young buffer; the address is that of the first. -/
def grow (h : Heap) (count : Nat) : Except Fault (Heap × Address) := do
  let first ← Address.make h.activeBuffer h.active.size
  return ({ h with active := h.active ++ Array.replicate count .blank }, first)

/-- Makes the cell at each address refer to the next one. -/
def link (h : Heap) : List Address → Heap
  | p :: q :: rest => link (h.modify p fun c => c.store .cdr (.ref q)) (q :: rest)
  | _ => h

/-- The written form of a heap: its occupancy, and each cell with its generation and index. -/
def text (describe : ValueId → String) (h : Heap) : String :=
  let lines (generation : String) (cells : Array Cell) : List String :=
    cells.toList.zipIdx.map fun (c, i) =>
      generation ++ " " ++ Text.column 6 i ++ " " ++ c.text describe ++ "\n"
  h.occupancy.text ++ "\n" ++ String.join (lines "(Yg)" h.active ++ lines "(Od)" h.old)

/-- The cells that carry no mark. -/
def unmarked (h : Heap) : Nat :=
  h.active.countP (!·.isMarked) + h.old.countP (!·.isMarked)

@[simp] theorem roots_put (h : Heap) (p : Address) (c : Cell) : (h.put p c).roots = h.roots := by
  unfold put
  split
  · split <;> rfl
  · rfl

@[simp] theorem side_put (h : Heap) (p : Address) (c : Cell) : (h.put p c).side = h.side := by
  unfold put
  split
  · split <;> rfl
  · rfl

@[simp] theorem settings_put (h : Heap) (p : Address) (c : Cell) : (h.put p c).settings = h.settings := by
  unfold put
  split
  · split <;> rfl
  · rfl

@[simp] theorem counters_put (h : Heap) (p : Address) (c : Cell) : (h.put p c).counters = h.counters := by
  unfold put
  split
  · split <;> rfl
  · rfl

@[simp] theorem size_old_put (h : Heap) (p : Address) (c : Cell) : (h.put p c).old.size = h.old.size := by
  unfold put
  split
  · split <;> rfl
  · exact Array.size_setIfInBounds

private theorem getElem?_setIfInBounds_index {cells : Array Cell} {i j : UInt32} {c : Cell} :
    (cells.setIfInBounds i.toNat c)[j.toNat]? =
      if j = i ∧ (cells[i.toNat]?).isSome then some c else cells[j.toNat]? := by
  rw [Array.getElem?_setIfInBounds]
  by_cases hj : j = i
  · subst hj
    by_cases hlt : j.toNat < cells.size <;> simp [hlt]
  · have hne : i.toNat ≠ j.toNat := fun h => hj (UInt32.toNat_inj.1 h.symm)
    simp [hne, hj]

/-- What is read after a cell was replaced. -/
theorem get?_put (h : Heap) (p q : Address) (c : Cell) :
    (h.put p c).get? q = if q = p ∧ h.contains p then some c else h.get? q := by
  obtain ⟨sp, ip⟩ := p
  obtain ⟨sq, iq⟩ := q
  rcases sp with s | _ <;> rcases sq with t | _
  · by_cases hs : s = h.side.number <;> by_cases ht : t = h.side.number
    · simp [contains, put, get?, Address.position, hs, ht, getElem?_setIfInBounds_index]
    · simp [contains, put, get?, hs, ht]
    · simp [contains, put, get?, hs, ht]
    · simp [contains, put, get?, hs, ht]
  · by_cases hs : s = h.side.number <;> simp [contains, put, get?, hs]
  · by_cases ht : t = h.side.number <;> simp [contains, put, get?, ht]
  · simp [contains, put, get?, Address.position, getElem?_setIfInBounds_index]

private theorem countP_setIfInBounds_lt {cells : Array Cell} {i : Nat} {c d : Cell}
    (hc : cells[i]? = some c) (hm : c.isMarked = false) (hd : d.isMarked = true) :
    (cells.setIfInBounds i d).countP (!·.isMarked) < cells.countP (!·.isMarked) := by
  obtain ⟨hi, rfl⟩ := Array.getElem?_eq_some_iff.1 hc
  have hpos : 0 < cells.countP (!·.isMarked) :=
    Array.countP_pos_iff.2 ⟨_, Array.getElem_mem hi, by rw [hm]; rfl⟩
  rw [Array.setIfInBounds_def, dif_pos hi, Array.countP_set hi, hm, hd]
  show _ - 1 + 0 < _
  exact Nat.sub_lt hpos Nat.one_pos

/-- Marking an unmarked cell leaves fewer of them. -/
theorem unmarked_put_lt {h : Heap} {p : Address} {c d : Cell} (hc : h.get? p = some c)
    (hm : c.isMarked = false) (hd : d.isMarked = true) : (h.put p d).unmarked < h.unmarked := by
  unfold get? at hc
  unfold put
  split at hc
  · split at hc
    · rename_i s hs ha
      have := countP_setIfInBounds_lt hc hm hd
      simp only [ha, if_true, unmarked]
      omega
    · cases hc
  · have := countP_setIfInBounds_lt hc hm hd
    simp only [unmarked]
    omega

end Heap

end Tenure
