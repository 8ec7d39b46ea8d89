/-
  Tenure — retained lists.

  * `Ideal.HasList`: a list in an ideal heap that holds the numbers of an iteration.
  * `endsWell_filledList`: allocating one.
  * `RetainedLists.Stands`: the lists on a chain in an ideal heap.
  * `endsWell_push`, `Stands.release`: hanging a list onto the chain, and giving the chain up.
  * `RetainedLists.Held`: the heap holds just the lists of the chain.
  * `Stands.held`, `Held.verify`: a heap that mirrors an ideal heap in which the chain stands
    holds them, and is found intact.
-/
import Tenure.Proofs.SampleStructure
import Tenure.Workload.Retained

namespace Tenure

/-! ## Numbers -/

theorem Filler.exists_element {iteration : Nat} (h : iteration + 1 < Word.limit)
    (length position : Nat) : ∃ x, Filler.element length iteration position = .ok x := by
  unfold element
  split
  · exact ⟨_, rfl⟩
  · rw [mixed, show Word.add iteration 1 = .ok (iteration + 1) from Word.add_eq_ok_iff.2 ⟨rfl, h⟩]
    exact ⟨_, rfl⟩

namespace Ideal

variable {i i' i'' : Ideal} {n : Nat} {half : Half} {length iteration position : Nat} {ns : List Nat}

/-- Only the cars of some cells differ. -/
structure WritesCars (i : Ideal) (ns : List Nat) (i' : Ideal) : Prop where
  roots : i'.roots = i.roots
  next : i'.next = i.next
  size : i'.cells.size = i.cells.size
  slot? : ∀ n half, half = .cdr ∨ n ∉ ns → i'.slot? n half = i.slot? n half

theorem WritesCars.refl (i : Ideal) (ns : List Nat) : i.WritesCars ns i :=
  ⟨rfl, rfl, rfl, fun _ _ _ => rfl⟩

theorem WritesCars.cons (h : (i.write n .car (.datum d)).WritesCars ns i') :
    i.WritesCars (n :: ns) i' where
  roots := h.roots
  next := h.next
  size := h.size.trans (size_write _ _ _ _)
  slot? m half hm := by
    rcases hm with rfl | hm
    · rw [h.slot? m .cdr (Or.inl rfl), slot?_write_of_half (by decide)]
    · obtain ⟨hmn, hm⟩ := not_or.1 (List.mem_cons.not.1 hm)
      rw [h.slot? m half (Or.inr hm), slot?_write_of_ne hmn]

/-- Lists are where they were. -/
theorem WritesCars.leads (h : i.WritesCars ns i') {start : Option Nat} {ms : List Nat}
    (hl : i.Leads start ms) : i'.Leads start ms :=
  hl.congr h.size.ge fun n _ => h.slot? n .cdr (Or.inl rfl)

/-- Writing the cars of new cells. -/
theorem WritesCars.extends (h : i.WritesCars ns i') (he : i''.Extends i)
    (hns : ∀ n ∈ ns, i''.cells.size ≤ n) : i''.Extends i' where
  size_le := h.size ▸ he.size_le
  slot? n half hn := by
    rw [h.slot? n half (Or.inr fun hmem => absurd (hns n hmem) (by omega)), he.slot? n half hn]

/-- The cells at some places hold the numbers of a list, from a position on. -/
def Fills (i : Ideal) (length iteration : Nat) : Nat → List Nat → Prop
  | _, [] => True
  | position, n :: ns =>
    (∃ x, Filler.element length iteration position = .ok x ∧
      i.slot? n .car = some (.datum ⟨.int x, rfl⟩)) ∧ i.Fills length iteration (position + 1) ns

theorem Fills.extend (h : i.Fills length iteration position ns) (he : i.Extends i') :
    i'.Fills length iteration position ns := by
  induction ns generalizing position with
  | nil => trivial
  | cons n ns ih =>
    obtain ⟨⟨x, hx, hn⟩, hrest⟩ := h
    exact ⟨⟨x, hx, he.eq_some hn⟩, ih hrest⟩

/-- There is a list from a cell on that holds the numbers of an iteration. -/
def HasList (i : Ideal) (length iteration : Nat) (n : Nat) : Prop :=
  ∃ ns, i.Leads (some n) ns ∧ ns.length = length ∧ i.Fills length iteration 0 ns

theorem HasList.extend (h : i.HasList length iteration n) (he : i.Extends i') :
    i'.HasList length iteration n := by
  obtain ⟨ns, hleads, hlength, hfills⟩ := h
  exact ⟨ns, hleads.extend he, hlength, hfills.extend he⟩

/-- The list of an iteration hangs off a cell. -/
def Hangs (i : Ideal) (length : Nat) (n iteration : Nat) : Prop :=
  ∃ m, i.slot? n .car = some (.ref m) ∧ i.HasList length iteration m

theorem Hangs.extend (h : i.Hangs length n iteration) (he : i.Extends i') :
    i'.Hangs length n iteration := by
  obtain ⟨m, hm, hlist⟩ := h
  exact ⟨m, he.eq_some hm, hlist.extend he⟩

end Ideal

/-! ## Making a list -/

section Lists

variable {b : Bounds} {left : Nat} {s : Store} {R : Address → Nat → Prop} {i : Ideal}
  {length iteration position : Nat}

theorem fillCells_spec (hword : iteration + 1 < Word.limit) (position : Nat) {ps : List Address}
    {ns : List Nat} (h : s.Tracks b left R i) (hps : List.Forall₂ R ps ns) (hns : ns.Nodup) :
    ∃ t, fillCells length iteration position ps s = .ok () t ∧
      ∃ i', t.Tracks b left R i' ∧ i.WritesCars ns i' ∧ i'.Fills length iteration position ns := by
  induction hps generalizing s i position with
  | nil => exact ⟨s, rfl, i, h, .refl _ _, trivial⟩
  | @cons p n ps ns hpn _ ih =>
    obtain ⟨hn, hns⟩ := List.nodup_cons.1 hns
    obtain ⟨x, hx⟩ := Filler.exists_element hword length position
    obtain ⟨t, hw, ht⟩ := h.writeDatum hpn .car ⟨.int x, rfl⟩ rfl
    obtain ⟨u, hu, i', hi', hwritten, hfills⟩ := ih (position + 1) ht hns
    refine ⟨u, ?_, i', hi', hwritten.cons, ⟨x, hx, ?_⟩, hfills⟩
    · rw [fillCells, hx]
      exact Action.bind_eq_ok_iff.2 ⟨x, s, rfl, Action.bind_eq_ok_iff.2 ⟨(), t, hw, hu⟩⟩
    · rw [hwritten.slot? n .car (Or.inr hn)]
      exact Ideal.slot?_write_self (h.mirrors.lt_size hpn) _ _

theorem Ideal.mem_block {n count : Nat} :
    n ∈ i.block count ↔ i.cells.size ≤ n ∧ n < i.cells.size + count := by
  rw [Ideal.block, List.mem_range'_1]

/-- A new list leaves the cells that are there. -/
theorem Ideal.extends_block (i : Ideal) (count : Nat) :
    i.Extends ((i.grow count).link (i.block count)) where
  size_le := by simp
  slot? n half hn := by
    have hnot : n ∉ i.block count := fun hmem => absurd (mem_block.1 hmem).1 (by omega)
    rw [slot?_link_of_not_mem hnot, slot?_grow_of_lt hn]

/-- **Allocating a list** of numbers ends with a harmless error, or there is one more. -/
theorem endsWell_filledList (h : s.Tracks b (left + length) R i) (hword : iteration + 1 < Word.limit) :
    EndsWell (Store.Spent b) (filledList length iteration) s fun p t =>
      ∃ R i' n, t.Tracks b left R i' ∧ R p n ∧ i.Extends i' ∧ i'.roots = i.roots ∧ i'.next = i.next ∧
        i'.HasList length iteration n := by
  refine .bind (.ofHeap h.allocateLinked fun _ _ hp => hp) ?_
  rintro p t ⟨hpos, R, block, ht, hb, hR⟩
  refine .fits hb ?_
  have hnodup : (i.block length).Nodup := List.nodup_range'
  obtain ⟨u, hu, i', hi', hwritten, hfills⟩ := fillCells_spec hword 0 ht hR hnodup
  refine .call hu (.of_ok rfl ⟨R, i', i.cells.size, hi', Store.Tracks.first hb hR hpos, ?_, ?_, ?_, ?_⟩)
  · exact hwritten.extends (i.extends_block length) fun n hn => (Ideal.mem_block.1 hn).1
  · rw [hwritten.roots, Ideal.roots_link]
    rfl
  · rw [hwritten.next, Ideal.next_link]
    rfl
  · refine ⟨i.block length, hwritten.leads ?_, by simp [Ideal.block], hfills⟩
    have hhead : (i.block length).head? = some i.cells.size := by
      rw [Ideal.block, List.head?_range', if_neg (by omega)]
    rw [← hhead]
    refine Ideal.leads_link hnodup fun n hn => ?_
    obtain ⟨hle, hlt⟩ := Ideal.mem_block.1 hn
    exact ⟨_, Ideal.slot?_grow_of_le hle hlt .cdr⟩

end Lists

/-! ## Chains -/

namespace RetainedLists

variable {b : Bounds} {left : Nat} {s : Store} {R : Address → Nat → Prop} {i i' : Ideal}
  {length iteration : Nat} {chain : RetainedLists} {top : Option (RootId × Nat)} {p : Address} {n : Nat}

/-- The lists of a chain in an ideal heap, where `top` is the root on the newest spine cell. -/
structure Stands (chain : RetainedLists) (length : Nat) (top : Option (RootId × Nat)) (i : Ideal) :
    Prop where
  root : chain.root = top.map (·.1)
  roots : i.roots = Sample.anchors ++ top.toList
  next : 3 ≤ i.next
  fresh : ∀ e ∈ top, 3 ≤ e.1.serial ∧ e.1.serial < i.next
  lists : ∃ spines, i.Leads (top.map (·.2)) spines ∧
    List.Forall₂ (i.Hangs length) spines chain.iterations.toList.reverse

theorem serial_lt_of_mem_anchors {e : RootId × Nat} (he : e ∈ Sample.anchors) : e.1.serial < 3 := by
  simp only [Sample.anchors, List.mem_cons, List.not_mem_nil, or_false] at he
  rcases he with rfl | rfl | rfl <;> decide

theorem ne_of_mem_anchors {id : RootId} (hid : 3 ≤ id.serial) : ∀ e ∈ Sample.anchors, e.1 ≠ id := by
  rintro e he rfl
  exact absurd (serial_lt_of_mem_anchors he) (Nat.not_lt.2 hid)

theorem Stands.serial_lt (h : chain.Stands length top i) {e : RootId × Nat} (he : e ∈ i.roots) :
    e.1.serial < i.next := by
  rw [h.roots] at he
  rcases List.mem_append.1 he with he | he
  · exact (serial_lt_of_mem_anchors he).trans_le h.next
  · exact (h.fresh e (Option.mem_toList.1 he)).2

/-- A root is found behind others with other handles. -/
theorem lookup_append_self {β : Type} {roots : List (RootId × β)} {id : RootId} {n : β}
    (hid : ∀ e ∈ roots, e.1 ≠ id) : (roots ++ [(id, n)]).lookup id = some n := by
  induction roots with
  | nil => simp
  | cons e roots ih =>
    obtain ⟨key, m⟩ := e
    have hne : (id == key) = false := beq_eq_false_iff_ne.2 (hid _ List.mem_cons_self).symm
    rw [List.cons_append, List.lookup_cons, hne]
    exact ih fun e he => hid e (List.mem_cons_of_mem _ he)

/-- Taking it away again leaves the others. -/
theorem filter_append_self {roots : List (RootId × Nat)} {id : RootId}
    (hid : ∀ e ∈ roots, e.1 ≠ id) : (roots ++ [(id, n)]).filter (·.1 != id) = roots := by
  rw [List.filter_append, List.filter_eq_self.2 fun e he => bne_iff_ne.2 (hid e he)]
  simp

theorem endsWell_spineFor (h : s.Tracks b (left + 1) R i) (hpn : R p n)
    (hfresh : ∀ e ∈ i.roots, e.1.serial < i.next) (hids : i.next ≤ b.ids) :
    EndsWell (Store.Spent b) (spineFor p) s fun x t =>
      ∃ R, t.Tracks b left R { i.grow 1 with next := i.next + 1 } ∧ R x.1 i.cells.size ∧ R x.2 n := by
  have hne : ∀ e ∈ i.roots, e.1 ≠ ⟨i.next⟩ := fun e he hid => by
    have := hfresh e he
    rw [hid] at this
    exact Nat.lt_irrefl _ this
  unfold spineFor
  refine h.rooting hpn hids fun s h => ?_
  refine .bind (.lift h.allocate) ?_
  rintro (error | spine) t ht
  · -- the root is taken away before the refusal is looked at
    exact .of_error rfl (RunError.harmless_heap error)
  · obtain ⟨-, R, block, ht, hb, hR⟩ := ht
    have hspine : R spine i.cells.size := Store.Tracks.first hb hR Nat.one_pos
    obtain ⟨list, hroot, hlist⟩ := ht.root (lookup_append_self hne)
    refine .step rfl (.step rfl (.step rfl (.require hroot ?_)))
    have hideal : ({ i.grow 1 with next := i.next + 1 } : Ideal) =
        { i.grow 1 with
          roots := (i.roots ++ [((⟨i.next⟩ : RootId), n)]).filter (·.1 != ⟨i.next⟩)
          next := i.next + 1 } := by
      rw [filter_append_self hne]
      rfl
    refine .of_ok rfl ⟨R, ?_, hspine, hlist⟩
    rw [hideal]
    exact ht.eraseRoot ⟨i.next⟩

theorem Stands.extend (h : chain.Stands length top i) (he : i.Extends i') (hroots : i'.roots = i.roots)
    (hnext : i.next ≤ i'.next) : chain.Stands length top i' where
  root := h.root
  roots := hroots.trans h.roots
  next := h.next.trans hnext
  fresh e hmem := (h.fresh e hmem).imp_right (·.trans_le hnext)
  lists := by
    obtain ⟨spines, hleads, hspines⟩ := h.lists
    exact ⟨spines, hleads.extend he, hspines.imp fun _ _ hs => hs.extend he⟩

/-- The chain with a further list. -/
theorem Stands.cons (h : chain.Stands length top i) (id : RootId) {n m : Nat} (he : i.Extends i')
    (hroots : i'.roots = Sample.anchors ++ [(id, n)]) (hnext : i.next ≤ i'.next)
    (hid : 3 ≤ id.serial ∧ id.serial < i'.next)
    (hn : i'.next? n .cdr = top.map (·.2)) (hm : i'.slot? n .car = some (.ref m))
    (hlist : i'.HasList length iteration m) :
    Stands ⟨some id, chain.iterations.push iteration⟩ length (some (id, n)) i' where
  root := rfl
  roots := hroots
  next := h.next.trans hnext
  fresh e he := by
    cases he
    exact hid
  lists := by
    obtain ⟨spines, hleads, hspines⟩ := h.lists
    refine ⟨n :: spines, ⟨rfl, Ideal.lt_size_of_slot? hm, hn ▸ hleads.extend he⟩, ?_⟩
    rw [Array.toList_push, List.reverse_append]
    exact .cons ⟨m, hm, hlist⟩ (hspines.imp fun _ _ hs => hs.extend he)

/-- The ideal heap with a list hung off a new cell. -/
def spined (i : Ideal) (n : Nat) : Ideal :=
  ({ i.grow 1 with next := i.next + 1 } : Ideal).write i.cells.size .car (.ref n)

@[simp] theorem size_spined (i : Ideal) (n : Nat) : (spined i n).cells.size = i.cells.size + 1 := by
  simp [spined]

theorem extends_spined (i : Ideal) (n : Nat) : i.Extends (spined i n) := by
  refine Ideal.Extends.write ?_ (Nat.le_refl _) .car (.ref n)
  exact (i.extends_grow 1).trans (.of_cells rfl)

theorem slot?_spined_car (i : Ideal) (n : Nat) :
    (spined i n).slot? i.cells.size .car = some (.ref n) :=
  Ideal.slot?_write_self (by simp) _ _

theorem slot?_spined_cdr (i : Ideal) (n : Nat) :
    (spined i n).slot? i.cells.size .cdr = some (.datum ⟨.empty, rfl⟩) := by
  rw [spined, Ideal.slot?_write_of_half (by decide)]
  exact Ideal.slot?_grow_of_le (Nat.le_refl _) (Nat.lt_succ_self _) .cdr

theorem map_set_append {id : RootId} (hid : 3 ≤ id.serial) (m : Nat) :
    (Sample.anchors ++ [(id, n)]).map (fun e => if e.1 = id then (id, m) else e) =
      Sample.anchors ++ [(id, m)] := by
  have hanchors : Sample.anchors.map (fun e => if e.1 = id then (id, m) else e) = Sample.anchors :=
    (List.map_congr_left fun e he => if_neg (ne_of_mem_anchors hid e he)).trans (List.map_id _)
  rw [List.map_append, hanchors, List.map_singleton, if_pos rfl]

/-- The ideal heap with the first list of a chain. -/
def begun (i : Ideal) (n : Nat) : Ideal :=
  { spined i n with roots := i.roots ++ [(⟨i.next + 1⟩, i.cells.size)], next := i.next + 2 }

theorem extends_begun (i : Ideal) (n : Nat) : i.Extends (begun i n) :=
  (extends_spined i n).trans (.of_cells rfl)

theorem Stands.begun (h : chain.Stands length none i) (hlist : i.HasList length iteration n) :
    Stands ⟨some ⟨i.next + 1⟩, chain.iterations.push iteration⟩ length
      (some (⟨i.next + 1⟩, i.cells.size)) (begun i n) := by
  have he := extends_begun i n
  refine h.cons ⟨i.next + 1⟩ he ?_ (Nat.le_add_right _ _) ⟨?_, Nat.lt_succ_self _⟩
    (Ideal.next?_of_datum (slot?_spined_cdr i n)) (slot?_spined_car i n) (hlist.extend he)
  · show i.roots ++ _ = _
    rw [h.roots]
    rfl
  · exact h.next.trans (Nat.le_succ _)

/-- The ideal heap with a further list of a chain, the newest spine cell of which was `k`. -/
def continued (i : Ideal) (n : Nat) (id : RootId) (k : Nat) : Ideal :=
  { (spined i n).write i.cells.size .cdr (.ref k) with
    roots := i.roots.map fun e => if e.1 = id then (id, i.cells.size) else e }

theorem extends_continued (i : Ideal) (n : Nat) (id : RootId) (k : Nat) :
    i.Extends (continued i n id k) :=
  ((extends_spined i n).write (Nat.le_refl _) .cdr (.ref k)).trans (.of_cells rfl)

theorem Stands.continued {id : RootId} {k : Nat} (h : chain.Stands length (some (id, k)) i)
    (hlist : i.HasList length iteration n) :
    Stands ⟨some id, chain.iterations.push iteration⟩ length (some (id, i.cells.size))
      (continued i n id k) := by
  obtain ⟨hid, hlt⟩ : 3 ≤ id.serial ∧ id.serial < i.next := h.fresh _ rfl
  have he := extends_continued i n id k
  have hcdr : (RetainedLists.continued i n id k).slot? i.cells.size .cdr = some (.ref k) :=
    Ideal.slot?_write_self (by simp) _ _
  have hcar : (RetainedLists.continued i n id k).slot? i.cells.size .car = some (.ref n) :=
    (Ideal.slot?_write_of_half (by decide) _ _ _).trans (slot?_spined_car i n)
  refine h.cons id he ?_ (Nat.le_succ _) ⟨hid, hlt.trans (Nat.lt_succ_self _)⟩
    (Ideal.next?_of_ref hcdr) hcar (hlist.extend he)
  show i.roots.map _ = _
  rw [h.roots]
  exact map_set_append hid _

/-- The newest spine cell has a root. -/
theorem Stands.lookup {id : RootId} {k : Nat} (h : chain.Stands length (some (id, k)) i) :
    i.roots.lookup id = some k := by
  rw [h.roots]
  exact lookup_append_self (ne_of_mem_anchors (h.fresh _ rfl).1)

/-- **Hanging a list onto the chain** ends with a harmless error, or the chain stands with it. -/
theorem endsWell_push (h : s.Tracks b (left + 1) R i) (hpn : R p n) (hchain : chain.Stands length top i)
    (hlist : i.HasList length iteration n) (hids : i.next + 1 ≤ b.ids) :
    EndsWell (Store.Spent b) (chain.push p iteration) s fun chain' t =>
      ∃ R i' top', t.Tracks b left R i' ∧ i.Extends i' ∧ chain'.Stands length top' i' ∧
        chain'.iterations = chain.iterations.push iteration ∧ i'.next ≤ i.next + 2 := by
  obtain ⟨root, iterations⟩ := chain
  refine .bind (endsWell_spineFor h hpn (fun _ => hchain.serial_lt) (Nat.le_of_succ_le hids)) ?_
  rintro ⟨spine, list⟩ s ⟨R, h, hspine, hlistn⟩
  refine .calls (h.writeRef hspine .car hlistn) fun s h => ?_
  replace h : s.Tracks b left R (spined i n) := h
  refine .step rfl ?_
  cases top with
  | none =>
    obtain rfl : root = none := hchain.root
    refine h.rooting hspine hids fun s h => ?_
    exact .of_ok rfl
      ⟨R, begun i n, _, h, extends_begun i n, hchain.begun hlist, rfl, Nat.le_refl _⟩
  | some e =>
    obtain ⟨id, k⟩ := e
    obtain rfl : root = some id := hchain.root
    obtain ⟨previous, hroot, hprevious⟩ := h.root (show (spined i n).roots.lookup id = some k from
      hchain.lookup)
    have hfound : (some id).bind s.heap.roots.get? = some previous := hroot
    simp only [hfound]
    refine .calls (h.writeRef hspine .cdr hprevious) fun s h => ?_
    refine .step rfl (.step rfl ?_)
    exact .of_ok rfl ⟨R, continued i n id k, _, h.setRoot hspine id, extends_continued i n id k,
      hchain.continued hlist, rfl, Nat.le_succ _⟩

/-- Giving the chain up leaves a chain without lists. -/
theorem Stands.release (hchain : chain.Stands length top i) (h : s.Tracks b left R i) :
    ∃ i', (chain.release s).Tracks b left R i' ∧ i.Extends i' ∧ i'.next = i.next ∧
      Stands {} length none i' := by
  have hnone : ∀ {i' : Ideal}, i'.roots = Sample.anchors → i'.next = i.next →
      Stands {} length none i' := fun hroots hnext =>
    ⟨rfl, by rw [hroots]; rfl, hnext ▸ hchain.next, fun _ he => (nomatch he), [], rfl, .nil⟩
  obtain ⟨root, iterations⟩ := chain
  cases top with
  | none =>
    obtain rfl : root = none := hchain.root
    exact ⟨i, h, .of_cells rfl, rfl, hnone (by rw [hchain.roots]; rfl) rfl⟩
  | some e =>
    obtain ⟨id, n⟩ := e
    obtain rfl : root = some id := hchain.root
    have hid : 3 ≤ id.serial := (hchain.fresh _ rfl).1
    refine ⟨_, h.eraseRoot id, .of_cells rfl, rfl, hnone ?_ rfl⟩
    show i.roots.filter (·.1 != id) = Sample.anchors
    rw [hchain.roots]
    exact filter_append_self (ne_of_mem_anchors hid)

end RetainedLists

/-! ## Checking a chain -/

namespace Heap

/-- The cells at some addresses hold the numbers of a list, from a position on. -/
def Fills (h : Heap) (length iteration : Nat) : Nat → List Address → Prop
  | _, [] => True
  | position, p :: ps =>
    (∃ c x, h.get? p = some c ∧ Filler.element length iteration position = .ok x ∧ c.car = .int x) ∧
      h.Fills length iteration (position + 1) ps

/-- The walk from an address goes along a list that holds the numbers of an iteration. -/
def HoldsList (h : Heap) (length iteration : Nat) (p : Address) : Prop :=
  ∃ cells, h.walkAll p = some cells ∧ cells.length = length ∧ h.Fills length iteration 0 cells

/-- The list of an iteration hangs off the cell at an address. -/
def Hangs (h : Heap) (length : Nat) (spine : Address) (iteration : Nat) : Prop :=
  ∃ c p, h.get? spine = some c ∧ c.car = .ref p ∧ h.HoldsList length iteration p

end Heap

namespace RetainedLists

variable {R : Address → Nat → Prop} {h : Heap} {i : Ideal} {length iteration position : Nat}
  {chain : RetainedLists} {top : Option (RootId × Nat)} {p : Address} {n : Nat}

/-- The heap holds the lists of the chain, newest first, and no others hang off its spine. -/
def Held (chain : RetainedLists) (h : Heap) (length : Nat) : Prop :=
  ∃ spines, (chain.head? h).elim (some []) h.walkAll = some spines ∧
    List.Forall₂ (h.Hangs length) spines chain.iterations.toList.reverse

theorem fills_of_mirrors (hm : Mirrors R h i) {ps : List Address} {ns : List Nat}
    (hps : List.Forall₂ R ps ns) (hns : i.Fills length iteration position ns) :
    h.Fills length iteration position ps := by
  induction hps generalizing position with
  | nil => trivial
  | cons hpn _ ih =>
    obtain ⟨⟨x, hx, hn⟩, hrest⟩ := hns
    obtain ⟨c, -, hc, -, -⟩ := hm.cell hpn
    exact ⟨⟨c, x, hc, hx, hm.slot_of_datum hpn hc hn⟩, ih hrest⟩

theorem holdsList_of_mirrors (hm : Mirrors R h i) (hpn : R p n) (hn : i.HasList length iteration n) :
    h.HoldsList length iteration p := by
  obtain ⟨ns, hleads, hlength, hfills⟩ := hn
  obtain ⟨ps, hwalk, hps⟩ := hm.walkAll hpn hleads
  exact ⟨ps, hwalk, hps.length_eq.trans hlength, fills_of_mirrors hm hps hfills⟩

theorem hangs_of_mirrors (hm : Mirrors R h i) (hpn : R p n) (hn : i.Hangs length n iteration) :
    h.Hangs length p iteration := by
  obtain ⟨m, hcar, hlist⟩ := hn
  obtain ⟨c, -, hc, -, -⟩ := hm.cell hpn
  obtain ⟨q, hq, hqm⟩ := hm.slot_of_ref hpn hc .car hcar
  exact ⟨c, q, hc, hq, holdsList_of_mirrors hm hqm hlist⟩

theorem forall₂_hangs (hm : Mirrors R h i) {ps : List Address} {ns js : List Nat}
    (hps : List.Forall₂ R ps ns) (hns : List.Forall₂ (i.Hangs length) ns js) :
    List.Forall₂ (h.Hangs length) ps js := by
  induction hps generalizing js with
  | nil =>
    cases hns
    exact .nil
  | cons hpn _ ih =>
    obtain _ | ⟨hn, hrest⟩ := hns
    exact .cons (hangs_of_mirrors hm hpn hn) (ih hrest)

/-- A heap that mirrors an ideal heap in which the chain stands holds its lists. -/
theorem Stands.held (hchain : chain.Stands length top i) (hm : Mirrors R h i) : chain.Held h length := by
  obtain ⟨spines, hleads, hspines⟩ := hchain.lists
  cases top with
  | none =>
    cases spines with
    | cons n ns => cases hleads.1
    | nil =>
      refine ⟨[], ?_, ?_⟩
      · rw [head?, hchain.root]
        rfl
      · rw [List.forall₂_nil_left_iff.1 hspines]
        exact .nil
  | some e =>
    obtain ⟨id, n⟩ := e
    have hroot := hm.root id
    rw [hchain.lookup] at hroot
    generalize hget : h.roots.get? id = a at hroot
    cases hroot with
    | some hpn =>
      obtain ⟨ps, hwalk, hps⟩ := hm.walkAll hpn hleads
      refine ⟨ps, ?_, ?_⟩
      · rw [head?, hchain.root, Option.map_some, Option.bind_some, hget]
        exact hwalk
      · exact forall₂_hangs hm hps hspines

theorem verifyCells_of_fills {ps : List Address} (hps : h.Fills length iteration position ps) :
    verifyCells h length iteration position ps = .ok none := by
  induction ps generalizing position with
  | nil => rfl
  | cons p ps ih =>
    obtain ⟨⟨c, x, hc, hx, hcar⟩, hrest⟩ := hps
    rw [verifyCells, hx, ok_bind, hc, Option.getD_some, hcar,
      if_pos (show (Slot.int x).int? = some x from rfl)]
    exact ih hrest

theorem verifyList_of_hangs (hp : h.Hangs length p iteration) :
    verifyList h length iteration p = .ok .intact := by
  obtain ⟨c, q, hc, hcar, cells, hwalk, hlength, hfills⟩ := hp
  have hcells := verifyCells_of_fills hfills
  simp only [verifyList, hc, Option.getD_some, hcar, Slot.ref?, hwalk, hlength, ne_eq,
    not_true_eq_false, if_false, hcells]
  rfl

/-- **A chain that the heap holds** is found intact. -/
theorem Held.verify (hheld : chain.Held h length) : chain.verify h length = .ok .intact := by
  obtain ⟨spines, hhead, hspines⟩ := hheld
  have hlists : ∀ {ps : List Address} {js : List Nat}, List.Forall₂ (h.Hangs length) ps js →
      verifyLists h length (ps.zip js) = .ok .intact := by
    intro ps js hps
    induction hps with
    | nil => rfl
    | cons hp _ ih =>
      rw [List.zip_cons_cons, verifyLists, verifyList_of_hangs hp, ok_bind]
      exact ih
  have hlength : spines.length = chain.size := by
    rw [hspines.length_eq, List.length_reverse, Array.length_toList, size]
  have hverified : verifyLists h length (spines.zip chain.iterations.toList.reverse) = .ok .intact :=
    hlists hspines
  unfold RetainedLists.verify
  cases hc : chain.head? h with
  | none =>
    rw [hc] at hhead
    cases hhead
    simpa only [hlength, ne_eq, not_true_eq_false, if_false] using hverified
  | some head =>
    rw [hc] at hhead
    have hwalk : h.walkAll head = some spines := hhead
    simpa only [hwalk, hlength, ne_eq, not_true_eq_false, if_false] using hverified

end RetainedLists

end Tenure
