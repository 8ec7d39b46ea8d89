/-
  Tenure — what a request for a block comes to.

  * `Heap.Gains`: a block of cells is there that was not, and nothing refers to it; `gains_appended`:
    appending blank cells does this, and linking them leaves it so.
  * `Store.Matches`, `SameAnswer`: stores that differ in their journals only, and answers that do;
    `collect_matches`: a collection does not depend on the journal.
  * `Store.collectAndAllocate`: a collection, and then the request again; `allocate_of_full`: a request
    for which there is no room comes to the same.
  * `allocate_outcomes`: all that a request can come to; `Store.Readied`: the state in which a block is
    appended.
  * `allocate_exact`: what a request comes to, in every case.
-/
import Tenure.Proofs.FilledLists
import Tenure.Proofs.CellAccount

namespace Tenure

/-! ## Blocks -/

namespace Heap

variable {h h' : Heap} {block : List Address} {count : Nat} {p q : Address}

/-- The heap with so many blank cells more. -/
def appended (h : Heap) (count : Nat) : Heap :=
  { h with active := h.active ++ Array.replicate count .blank }

/-- In `h'` there is a block of young cells that is not in `h`.  No root and no cell that the roots
    reach refers to any of them, and all other cells and the roots are those of `h`. -/
structure Gains (h : Heap) (block : List Address) (h' : Heap) : Prop where
  nodup : block.Nodup
  active : ∀ q ∈ block, q.space = h'.activeBuffer
  contains : ∀ q ∈ block, h'.contains q
  new : ∀ q ∈ block, ¬ h.contains q
  others : ∀ q, q ∉ block → h'.get? q = h.get? q
  roots : h'.roots = h.roots
  unrooted : ∀ q ∈ block, q ∉ h'.roots.addresses
  unreferred : ∀ q ∈ block, ∀ p, h'.Rooted p → ¬ h'.RefersTo p q

/-- Where no address dangles, the roots reach no cell that is new. -/
theorem NoDangling.rooted_of_new (hd : h.NoDangling) (hnew : ∀ q ∈ block, ¬ h.contains q)
    (hothers : ∀ q, q ∉ block → h'.get? q = h.get? q) (hroots : h'.roots = h.roots)
    (hp : h'.Rooted p) : h.Rooted p := by
  induction hp with
  | start hp _ => exact hd.rooted_root (hroots ▸ hp)
  | @step p q _ hrefers _ ih =>
    obtain ⟨c, hc, hq⟩ := hrefers
    have hold : p ∉ block := fun hmem => hnew p hmem ih.contains
    exact hd.rooted_step ih ⟨c, (hothers p hold).symm.trans hc, hq⟩

theorem NoDangling.gains (hd : h.NoDangling) (hnodup : block.Nodup)
    (hactive : ∀ q ∈ block, q.space = h'.activeBuffer) (hcontains : ∀ q ∈ block, h'.contains q)
    (hnew : ∀ q ∈ block, ¬ h.contains q) (hothers : ∀ q, q ∉ block → h'.get? q = h.get? q)
    (hroots : h'.roots = h.roots) : h.Gains block h' where
  nodup := hnodup
  active := hactive
  contains := hcontains
  new := hnew
  others := hothers
  roots := hroots
  unrooted q hq hmem := hnew q hq (hd.root q (hroots ▸ hmem))
  unreferred q hq p hp hrefers := by
    have hrooted := hd.rooted_of_new hnew hothers hroots hp
    obtain ⟨c, hc, hmem⟩ := hrefers
    have hold : p ∉ block := fun hmem => hnew p hmem hrooted.contains
    exact hnew q hq (hd.cell p q hrooted ⟨c, (hothers p hold).symm.trans hc, hmem⟩)

theorem Gains.link (hg : h.Gains block h') (hd : h.NoDangling) : h.Gains block (h'.link block) := by
  refine hd.gains hg.nodup (fun q hq => ?_) (fun q hq => ?_) hg.new (fun q hq => ?_) ?_
  · rw [hg.active q hq]
    exact congrArg Semispace.space (congr_link side_put h' block).symm
  · rw [contains_link]
    exact hg.contains q hq
  · exact (get?_link_of_not_mem hq).trans (hg.others q hq)
  · exact (congr_link roots_put h' block).trans hg.roots

/-- Taking roots away leaves no address dangling that was not. -/
theorem NoDangling.purged (hd : h.NoDangling) : h.purged.NoDangling := by
  have hsub : h.purged.roots.addresses ⊆ h.roots.addresses := fun _ =>
    RootRegistry.mem_addresses_of_purge
  have hrooted : ∀ {p}, h.purged.Rooted p → h.Rooted p := by
    intro p hp
    induction hp with
    | start hp hc => exact .start (hsub hp) hc
    | step _ hrefers hc ih => exact .step ih hrefers hc
  exact ⟨fun p hp => hd.root p (hsub hp), fun p q hp hq => hd.cell p q (hrooted hp) hq⟩

/-- The cells of the block are those behind the last one. -/
theorem mem_block_iff (hspace : p.space = h.side.space) (hpos : p.position = h.active.size)
    (hb : p.block count = .ok block) :
    q ∈ block ↔ q.space = h.side.space ∧ h.active.size ≤ q.position ∧
      q.position < h.active.size + count := by
  obtain ⟨hlength, hget⟩ := Address.getElem?_block hb
  constructor
  · intro hq
    obtain ⟨k, hk, rfl⟩ := List.getElem_of_mem hq
    obtain ⟨hqs, hqp⟩ := hget k _ (List.getElem?_eq_getElem hk)
    exact ⟨hqs.trans hspace, by omega, by omega⟩
  · rintro ⟨hqs, hle, hlt⟩
    have hk : q.position - h.active.size < block.length := by omega
    obtain ⟨hqs', hqp⟩ := hget _ _ (List.getElem?_eq_getElem hk)
    have heq : block[q.position - h.active.size] = q :=
      Address.ext_position (hqs'.trans (hspace.trans hqs.symm)) (by omega)
    exact heq ▸ List.getElem_mem hk

/-- What is read after blank cells have been appended. -/
theorem get?_appended (h : Heap) (count : Nat) (q : Address) :
    (h.appended count).get? q =
      if q.space = h.side.space ∧ h.active.size ≤ q.position ∧ q.position < h.active.size + count
      then some .blank else h.get? q := by
  by_cases hqs : q.space = h.side.space
  · have hread : (h.appended count).get? q =
        (h.active ++ Array.replicate count Cell.blank)[q.position]? := get?_of_active _ hqs
    rw [hread, Array.getElem?_append, Array.getElem?_replicate, get?_of_active h hqs]
    by_cases hlt : q.position < h.active.size
    · rw [if_pos hlt, if_neg (by omega)]
    · by_cases hnew : q.position - h.active.size < count
      · rw [if_neg hlt, if_pos hnew, if_pos ⟨hqs, by omega, by omega⟩]
      · rw [if_neg hlt, if_neg hnew, if_neg (by omega), Array.getElem?_eq_none (by omega)]
  · rw [if_neg fun hq => hqs hq.1]
    by_cases hold : q.isOld
    · rw [get?_eq_cellAt _ hold, get?_eq_cellAt _ hold]
      rfl
    · rw [get?_of_elsewhere (h.appended count) hold hqs, get?_of_elsewhere h hold hqs]

/-- **Appending blank cells** to a heap without dangling addresses. -/
theorem gains_appended (hd : h.NoDangling) (hspace : p.space = h.side.space)
    (hpos : p.position = h.active.size) (hb : p.block count = .ok block) :
    h.Gains block (h.appended count) ∧ ∀ q ∈ block, (h.appended count).get? q = some .blank := by
  have hmem : ∀ q, q ∈ block ↔ _ := fun q => mem_block_iff hspace hpos hb
  have hblank : ∀ q ∈ block, (h.appended count).get? q = some .blank := fun q hq => by
    rw [get?_appended, if_pos ((hmem q).1 hq)]
  refine ⟨hd.gains (Address.nodup_block hb) (fun q hq => ((hmem q).1 hq).1)
    (fun q hq => contains_iff.2 ⟨_, hblank q hq⟩) (fun q hq hcontains => ?_) (fun q hq => ?_) rfl,
    hblank⟩
  · obtain ⟨hqs, hle, -⟩ := (hmem q).1 hq
    obtain ⟨c, hc⟩ := contains_iff.1 hcontains
    exact absurd (position_lt_of_get? hc hqs) (by omega)
  · rw [get?_appended, if_neg fun hnew => hq ((hmem q).2 hnew)]

end Heap

/-! ## Stores and their journals -/

namespace Store

variable {s s' t : Store} {count : Nat} {p : Address} {α : Type}

/-- The same heap and the same values, whatever has been noted. -/
structure Matches (s t : Store) : Prop where
  heap : s.heap = t.heap
  values : s.values = t.values

theorem Matches.log (h : s.Matches t) (event : Event) : (s.log event).Matches (t.log event) :=
  ⟨h.heap, h.values⟩

theorem Matches.mapHeap (h : s.Matches t) (f : Heap → Heap) : (s.mapHeap f).Matches (t.mapHeap f) :=
  ⟨congrArg f h.heap, h.values⟩

theorem Matches.release (h : s.Matches t) (v : ValueId) : (s.release v).Matches (t.release v) := by
  unfold Store.release
  rw [h.values]
  split
  · exact ⟨h.heap, rfl⟩
  · rename_i values value _
    cases value with
    | plain name => exact ⟨h.heap, rfl⟩
    | owner name root => exact ⟨congrArg (Heap.mapRoots · (·.release root)) h.heap, rfl⟩
    | file path => exact ⟨h.heap, rfl⟩

theorem Matches.releaseSlot (h : s.Matches t) (slot : Slot) :
    (s.releaseSlot slot).Matches (t.releaseSlot slot) := by
  unfold Store.releaseSlot
  split
  · exact h.release _
  · exact h

theorem Matches.releaseCells (h : s.Matches t) (cells : Array Cell) :
    (s.releaseCells cells).Matches (t.releaseCells cells) := by
  rw [Store.releaseCells, Store.releaseCells, ← Array.foldl_toList, ← Array.foldl_toList]
  induction cells.toList generalizing s t with
  | nil => exact h
  | cons c rest ih => exact ih ((h.releaseSlot c.car).releaseSlot c.cdr)

/-- The same answer or the same fault, in stores that match. -/
def SameAnswer : EStateM.Result Fault Store α → EStateM.Result Fault Store α → Prop
  | .ok a s, .ok b t => a = b ∧ s.Matches t
  | .error e s, .error f t => e = f ∧ s.Matches t
  | _, _ => False

theorem SameAnswer.symm {r r' : EStateM.Result Fault Store α} (h : SameAnswer r r') :
    SameAnswer r' r := by
  cases r <;> cases r' <;> first
    | exact ⟨h.1.symm, h.2.heap.symm, h.2.values.symm⟩
    | exact h.elim

theorem SameAnswer.exists_of_ok {r : EStateM.Result Fault Store α} {a : α}
    (h : SameAnswer r (.ok a t)) : ∃ s, r = .ok a s ∧ s.Matches t := by
  cases r with
  | ok b s => exact ⟨s, h.1 ▸ rfl, h.2⟩
  | error e s => exact h.elim

theorem SameAnswer.exists_of_error {r : EStateM.Result Fault Store α} {e : Fault}
    (h : SameAnswer r (.error e t)) : ∃ s, r = .error e s ∧ s.Matches t := by
  cases r with
  | ok b s => exact h.elim
  | error f s => exact ⟨s, h.1 ▸ rfl, h.2⟩

/-- **A collection does not depend on the journal.** -/
theorem Matches.collect (h : s.Matches t) : SameAnswer s.collect t.collect := by
  unfold Store.collect
  rw [h.heap]
  cases t.heap.collect with
  | error fault => exact ⟨rfl, h⟩
  | ok c =>
    have hstart : ({ s with heap := c.heap }.logStart c).Matches
        ({ t with heap := c.heap }.logStart c) := by
      obtain ⟨hheap, hvalues⟩ := logStart_eq { s with heap := c.heap } c
      obtain ⟨hheap', hvalues'⟩ := logStart_eq { t with heap := c.heap } c
      exact ⟨hheap.trans hheap'.symm, hvalues.trans (h.values.trans hvalues'.symm)⟩
    simp only
    split
    · exact ⟨rfl, hstart.log _⟩
    · rename_i report relocations oldGarbage youngGarbage _
      refine ⟨rfl, Matches.log (.mapHeap (.releaseCells (.log (.log (.releaseCells ?_ _) _) _) _) _) _⟩
      split
      · exact hstart.log _
      · exact hstart

theorem Matches.grow (h : s.Matches t) (count : Nat) : SameAnswer (s.grow count) (t.grow count) := by
  unfold Store.grow
  rw [h.heap]
  split
  · exact ⟨rfl, rfl, h.values⟩
  · exact ⟨rfl, h⟩

/-! ## Requests -/

/-- A collection, and then the request again, if the cells that have stayed young leave room for it. -/
def collectAndAllocate (count : Nat) : Action Store (Except HeapError Address) := do
  let capacity := (← get).heap.settings.youngCapacity
  match ← collect with
  | .error error => return .error error
  | .ok report =>
    let available := capacity - report.survivors
    if available < count then return .error (.youngExhausted count available)
    allocate count

/-- Appending a block for which there is room. -/
theorem grow_of_room (hh : s.heap.WellFormed) (hcount : 0 < count) (hroom : count ≤ s.heap.room) :
    ∃ p block, s.grow count = .ok p (s.mapHeap (·.appended count)) ∧ p.block count = .ok block ∧
      p.space = s.heap.side.space ∧ p.position = s.heap.active.size := by
  obtain ⟨heap, p, hg, hlimit⟩ := exists_grow hh hcount hroom
  obtain ⟨block, hb⟩ := Address.exists_block hlimit
  have hgrow : s.grow count = .ok p { s with heap } := by rw [grow, hg]
  obtain ⟨first, hfirst, hg⟩ := bind_eq_ok_iff.1 hg
  cases hg
  obtain ⟨hspace, hpos⟩ := Address.make_eq_ok_iff.1 hfirst
  exact ⟨p, block, hgrow, hb, hspace, hpos⟩

/-- **There is room**: the block is appended, and that is all. -/
theorem allocate_of_room (hcount : 0 < count) (hroom : count ≤ s.heap.room)
    (hgrow : s.grow count = .ok p t) : s.allocate count = .ok (.ok p) t := by
  rw [allocate_of_fits hcount (hroom.trans (Nat.sub_le _ _))]
  refine Action.bind_eq_ok_iff.2 ⟨_, s, makeRoom_of_room hroom, ?_⟩
  exact Action.bind_eq_ok_iff.2 ⟨p, _, hgrow, rfl⟩

/-- What a successful collection leaves in the active young buffer. -/
theorem room_collect (hh : s.heap.WellFormed) {report : CollectionSummary}
    (hc : s.collect = .ok (.ok report) t) :
    t.heap.room = s.heap.settings.youngCapacity - report.survivors := by
  obtain ⟨_, _, _, _, _, hheap, ho, -⟩ := exists_finished hc
  obtain ⟨r, e, -, he, -, hleft, -, -, hreport⟩ := Heap.exists_evacuation hheap ho
  obtain ⟨roots, ht⟩ := exists_roots_of_collect hheap hc
  have hsettings : t.heap.settings = s.heap.settings :=
    (congrArg (·.settings) ht).trans (Heap.settings_collect hh hheap)
  obtain ⟨hyoung, -⟩ := Evacuation.run_buffers he
  have hsize : t.heap.active.size = report.survivors := by
    rw [ht, hleft, hreport]
    show (e.young.map e.moves.updateCell).size = _
    rw [Array.size_map, hyoung, Heap.idle_prepared, hh.idle]
    simp [Heap.reportOf]
  rw [Heap.room, hsettings, hsize]

/-- **There is no room**: the request does what a collection and then the request again do. -/
theorem allocate_of_full (hh : s.heap.WellFormed) (hcount : 0 < count)
    (hfits : count ≤ s.heap.settings.youngCapacity) (hfull : s.heap.room < count) :
    SameAnswer (s.allocate count) (s.collectAndAllocate count) := by
  have hsame : SameAnswer (s.log (.fullFor count)).collect s.collect := Matches.collect ⟨rfl, rfl⟩
  rw [allocate_of_fits hcount hfits]
  change SameAnswer _ ((collect >>= _) s)
  simp only [bind, EStateM.bind, makeRoom_of_full hfull]
  cases hc : s.collect with
  | error fault t =>
    obtain ⟨t', hc', hm⟩ := (hc ▸ hsame).exists_of_error
    rw [hc']
    exact ⟨rfl, hm⟩
  | ok result t =>
    obtain ⟨t', hc', hm⟩ := (hc ▸ hsame).exists_of_ok
    rw [hc']
    cases result with
    | error error => exact ⟨rfl, hm⟩
    | ok report =>
      change SameAnswer _ ((ite _ _ _ : Action Store (Except HeapError Address)) t)
      simp only [← room_collect hh hc, hm.heap]
      by_cases hshort : t.heap.room < count
      · rw [if_neg (Nat.not_le.2 hshort), if_pos hshort]
        exact ⟨rfl, hm.heap, hm.values⟩
      · have hready := Nat.not_lt.1 hshort
        obtain ⟨p, _, hgrow, -⟩ := grow_of_room (wellFormed_collect hh hc) hcount hready
        obtain ⟨u, hgrow', hm'⟩ := (hgrow ▸ hm.grow count).exists_of_ok
        have hlast : (do return .ok (← grow count) : Action Store (Except HeapError Address)) t' =
            .ok (.ok p) u := Action.bind_eq_ok_iff.2 ⟨p, u, hgrow', rfl⟩
        rw [if_pos hready, if_neg hshort, allocate_of_room hcount hready hgrow]
        change SameAnswer ((do return .ok (← grow count) : Action Store (Except HeapError Address)) t') _
        rw [hlast]
        exact ⟨rfl, hm'⟩

/-- A block is appended to the active young buffer of `t`, and its first address is the answer. -/
def Appends (t : Store) (count : Nat) (r : Except HeapError Address) (t' : Store) : Prop :=
  ∃ p block, r = .ok p ∧ t' = t.mapHeap (·.appended count) ∧ p.block count = .ok block ∧
    p.space = t.heap.side.space ∧ p.position = t.heap.active.size

theorem appends_of_room (hh : s.heap.WellFormed) (hcount : 0 < count) (hroom : count ≤ s.heap.room)
    {r : Except HeapError Address} (ha : s.allocate count = .ok r s') : s.Appends count r s' := by
  obtain ⟨p, block, hgrow, hb, hspace, hpos⟩ := grow_of_room hh hcount hroom
  cases ha.symm.trans (allocate_of_room hcount hroom hgrow)
  exact ⟨p, block, rfl, rfl, hb, hspace, hpos⟩

/-- What a collection and then the request again come to. -/
theorem collectAndAllocate_cases (hh : s.heap.WellFormed) (hcount : 0 < count)
    {r : Except HeapError Address} (h : s.collectAndAllocate count = .ok r s') :
    (∃ error, s.collect = .ok (.error error) s' ∧ r = .error error) ∨
      ∃ report t, s.collect = .ok (.ok report) t ∧
        ((r = .error (.youngExhausted count t.heap.room) ∧ s' = t) ∨ t.Appends count r s') := by
  obtain ⟨_, _, hget, h⟩ := Action.bind_eq_ok_iff.1 h
  cases hget
  obtain ⟨result, t, hc, h⟩ := Action.bind_eq_ok_iff.1 h
  cases result with
  | error error =>
    cases h
    exact Or.inl ⟨error, hc, rfl⟩
  | ok report =>
    refine Or.inr ⟨report, t, hc, ?_⟩
    simp only [← room_collect hh hc] at h
    split at h
    · cases h
      exact Or.inl ⟨rfl, rfl⟩
    · rename_i hshort
      exact Or.inr (appends_of_room (wellFormed_collect hh hc) hcount (Nat.not_lt.1 hshort) h)

/-- All that a request for a block can come to. -/
theorem allocate_outcomes (hh : s.heap.WellFormed) {r : Except HeapError Address}
    (ha : s.allocate count = .ok r s') :
    ((count = 0 ∨ s.heap.settings.youngCapacity < count) ∧
        r = .error (.invalidAllocationSize count s.heap.settings.youngCapacity) ∧ s' = s) ∨
      (0 < count ∧ count ≤ s.heap.room ∧ s.Appends count r s') ∨
      (0 < count ∧ count ≤ s.heap.settings.youngCapacity ∧ s.heap.room < count ∧
        ∃ u, u.Matches s' ∧ ((∃ error, s.collect = .ok (.error error) u ∧ r = .error error) ∨
          ∃ report t, s.collect = .ok (.ok report) t ∧
            ((r = .error (.youngExhausted count t.heap.room) ∧ u = t) ∨ t.Appends count r u))) := by
  by_cases hsize : count = 0 ∨ s.heap.settings.youngCapacity < count
  · cases ha.symm.trans (allocate_of_size hsize)
    exact Or.inl ⟨hsize, rfl, rfl⟩
  obtain ⟨hzero, hlarge⟩ := not_or.1 hsize
  have hcount := Nat.pos_of_ne_zero hzero
  by_cases hroom : count ≤ s.heap.room
  · exact Or.inr (Or.inl ⟨hcount, hroom, appends_of_room hh hcount hroom ha⟩)
  · have hfull := Nat.not_le.1 hroom
    have hsame := (allocate_of_full hh hcount (Nat.not_lt.1 hlarge) hfull).symm
    obtain ⟨u, hu, hm⟩ := (ha ▸ hsame).exists_of_ok
    exact Or.inr (Or.inr ⟨hcount, Nat.not_lt.1 hlarge, hfull, u, hm,
      collectAndAllocate_cases hh hcount hu⟩)

/-- The state in which a block is appended: the store as it was if there is room, or as a collection
    has left it. -/
def Readied (s : Store) (count : Nat) (t : Store) : Prop :=
  if count ≤ s.heap.room then t = s else ∃ report, s.collect = .ok (.ok report) t

theorem readied_of_allocate (hh : s.heap.WellFormed) (ha : s.allocate count = .ok (.ok p) s') :
    ∃ t block, s.Readied count t ∧ s'.heap = t.heap.appended count ∧ s'.values = t.values ∧
      p.block count = .ok block ∧ p.space = t.heap.side.space ∧
      p.position = t.heap.active.size := by
  rcases allocate_outcomes hh ha with ⟨-, hr, -⟩ |
    ⟨-, hroom, _, block, hr, rfl, hb, hspace, hpos⟩ |
    ⟨-, -, hfull, u, hm, ⟨_, -, hr⟩ | ⟨report, t, hc, ⟨hr, -⟩ | ⟨_, block, hr, rfl, hb, hspace, hpos⟩⟩⟩
  · cases hr
  · cases hr
    exact ⟨s, block, by rw [Readied, if_pos hroom], rfl, rfl, hb, hspace, hpos⟩
  · cases hr
  · cases hr
  · cases hr
    exact ⟨t, block, by rw [Readied, if_neg (Nat.not_le.2 hfull)]; exact ⟨report, hc⟩, hm.heap.symm,
      hm.values.symm, hb, hspace, hpos⟩

theorem Readied.noDangling (h : s.Readied count t) (hclean : s.heap.Clean) (hd : s.heap.NoDangling) :
    t.heap.NoDangling := by
  unfold Readied at h
  split at h
  · exact h ▸ hd
  · obtain ⟨report, hc⟩ := h
    exact noDangling_of_collect hclean hd.purged hc

/-- A request is refused for its size only if no heap with these settings could meet it. -/
theorem of_invalidAllocationSize (hh : s.heap.WellFormed) (hclean : s.heap.Clean) {n max : Nat}
    (ha : s.allocate count = .ok (.error (.invalidAllocationSize n max)) s') :
    count = 0 ∨ s.heap.settings.youngCapacity < count := by
  rcases allocate_outcomes hh ha with ⟨hsize, -⟩ | ⟨-, -, _, _, hr, -⟩ |
    ⟨-, -, -, u, -, ⟨error, hc, hr⟩ | ⟨_, _, -, ⟨hr, -⟩ | ⟨_, _, hr, -⟩⟩⟩
  · exact hsize
  · cases hr
  · obtain ⟨-, -, rfl, -⟩ := of_refused hh hclean hc
    cases hr
  · cases hr
  · cases hr

/-! ## Linked blocks -/

theorem allocateLinked_of_ok (ha : s.allocate count = .ok (.ok p) t) {block : List Address}
    (hb : p.block count = .ok block) :
    s.allocateLinked count = .ok (.ok p) (t.mapHeap (·.link block)) := by
  refine Action.bind_eq_ok_iff.2 ⟨_, t, ha, ?_⟩
  exact Action.bind_eq_ok_iff.2 ⟨block, t, Action.lift_eq_ok_iff.2 ⟨hb, rfl⟩, rfl⟩

/-- Where no block is appended the two requests are the same. -/
theorem allocateLinked_of_not_ok (ha : ∀ p t, s.allocate count ≠ .ok (.ok p) t) :
    s.allocateLinked count = s.allocate count := by
  have hbind : s.allocateLinked count = EStateM.bind (allocate count) _ s := rfl
  rw [hbind, EStateM.bind]
  cases h : s.allocate count with
  | error fault t => rfl
  | ok result t =>
    cases result with
    | error error => rfl
    | ok p => exact absurd h (ha p t)

/-! ## The whole request -/

/-- **What a request for a block comes to**, on a heap without marks or dangling addresses.  It is
    refused for its size exactly if it is for no cells or for more than a young buffer ever holds.
    Otherwise it appends a block where there is room, and does what one collection and then the request
    again do where there is not.  Nothing refers to a cell of the block that it gives out.  A request for
    a linked block comes to the same, and the walk from its first cell is the block. -/
theorem allocate_exact (hs : s.Reachable) (hclean : s.heap.Clean) (hd : s.heap.NoDangling)
    (count : Nat) :
    -- refused at once
    ((∃ n max s', s.allocate count = .ok (.error (.invalidAllocationSize n max)) s') ↔
        count = 0 ∨ s.heap.settings.youngCapacity < count) ∧
      (count = 0 ∨ s.heap.settings.youngCapacity < count →
        s.allocate count =
          .ok (.error (.invalidAllocationSize count s.heap.settings.youngCapacity)) s) ∧
      -- with room and without
      (0 < count → count ≤ s.heap.room →
        ∃ p, s.allocate count = .ok (.ok p) (s.mapHeap (·.appended count))) ∧
      (0 < count → count ≤ s.heap.settings.youngCapacity → s.heap.room < count →
        SameAnswer (s.allocate count) (s.collectAndAllocate count)) ∧
      (allocate count).AnswersUnless s.heap.NearLimit s ∧
      -- the block, and the linked block
      (∀ p s', s.allocate count = .ok (.ok p) s' → ∃ t block, s.Readied count t ∧
        s'.heap = t.heap.appended count ∧ s'.values = t.values ∧ p.block count = .ok block ∧
          t.heap.Gains block s'.heap ∧ (∀ q ∈ block, s'.heap.get? q = some .blank) ∧
          s.allocateLinked count = .ok (.ok p) (s'.mapHeap (·.link block)) ∧
          t.heap.Gains block (s'.heap.link block) ∧
          (s'.heap.link block).walkAll p = some block) ∧
      ((∀ p s', s.allocate count ≠ .ok (.ok p) s') →
        s.allocateLinked count = s.allocate count) := by
  have hh := hs.wellFormed
  refine ⟨⟨fun ⟨_, _, _, ha⟩ => of_invalidAllocationSize hh hclean ha,
      fun hsize => ⟨_, _, _, allocate_of_size hsize⟩⟩, allocate_of_size, fun hcount hroom => ?_,
    allocate_of_full hh, answersUnless_allocate hh count, fun p s' ha => ?_,
    allocateLinked_of_not_ok⟩
  · obtain ⟨p, _, hgrow, -⟩ := grow_of_room hh hcount hroom
    exact ⟨p, allocate_of_room hcount hroom hgrow⟩
  · obtain ⟨t, block, hready, hheap, hvalues, hb, hspace, hpos⟩ := readied_of_allocate hh ha
    have hdangling := hready.noDangling hclean hd
    obtain ⟨hgains, hblank⟩ := Heap.gains_appended hdangling hspace hpos hb
    have hlinked := allocateLinked_of_ok ha hb
    refine ⟨t, block, hready, hheap, hvalues, hb, hheap ▸ hgains, hheap ▸ hblank, hlinked,
      hheap ▸ hgains.link hdangling, ?_⟩
    exact (leads_of_allocateLinked hlinked hb).1.walkAll

/-- A full young buffer of two cells, of which a root holds the second. -/
def brimful : Store where
  heap :=
    { settings := { youngCapacity := 2, oldCapacity := 2, oldHighWater := 2, promotionThreshold := 2 }
      active := #[.blank, .blank]
      roots := { entries := [(⟨0⟩, ⟨.young 0, 1⟩)], next := 1 } }

theorem reachable_brimful : brimful.Reachable := by
  have hmake : Heap.make? brimful.heap.settings 0 = .ok (.make brimful.heap.settings 0) := rfl
  have hstart : Reachable { heap := .make brimful.heap.settings 0 } := .start {} #[] hmake
  have hblock : Reachable { brimful with heap := { brimful.heap with roots := .empty 0 } } :=
    hstart.allocate (show allocate 2 _ = .ok (.ok ⟨.young 0, 0⟩) _ from rfl)
  exact hblock.addRoot (addRoot_of_lt (by decide) ⟨.young 0, 1⟩)

/-- A request for one cell more has to collect, and gets the place behind the cell that survives. -/
theorem allocate_exact_brimful : brimful.Reachable ∧ brimful.heap.Clean ∧ brimful.heap.NoDangling ∧
    ∃ s' t, brimful.allocate 1 = .ok (.ok ⟨.young 1, 1⟩) s' ∧ brimful.Readied 1 t ∧
      t.heap.Gains [⟨.young 1, 1⟩] s'.heap ∧ s'.heap.contains ⟨.young 1, 0⟩ := by
  have hclean : brimful.heap.Clean := by constructor <;> decide
  have hd : brimful.heap.NoDangling :=
    Heap.noDangling_of_closed [⟨.young 0, 1⟩] (by decide) (by decide)
  obtain ⟨r, s', ha, hcheck⟩ := Action.exists_of_passes (show Action.passes (allocate 1)
    (fun r s' => Action.accepts (fun p => p = ⟨.young 1, 1⟩ ∧ s'.heap.contains ⟨.young 1, 0⟩) r)
    brimful = true by
      simp only [allocate, makeRoom, Action.get_eq, Action.modify_eq]
      cbv)
  obtain ⟨p, rfl, hcheck⟩ := Action.exists_of_accepts hcheck
  obtain ⟨rfl, hcontains⟩ := of_decide_eq_true hcheck
  obtain ⟨-, -, -, -, -, hok, -⟩ := allocate_exact reachable_brimful hclean hd 1
  obtain ⟨t, block, hready, -, -, hb, hgains, -⟩ := hok _ _ ha
  rw [Address.block_one hb] at hgains
  exact ⟨reachable_brimful, hclean, hd, s', t, ha, hready, hgains, hcontains⟩

end Store

end Tenure
