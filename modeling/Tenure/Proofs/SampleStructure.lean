/-
  Tenure — the sample structure.

  * `EndsWell.call`, `EndsWell.fits`, `EndsWell.require`: steps of an attempt that are known to
    succeed.
  * `Tracks.allocating`, `Tracks.rooting`: an allocation and a root as steps of an attempt.
  * `Sample.Stands`: the sample structure in an ideal heap.
  * `endsWell_assemble`, `build_yields`: making it.
  * `verify_eq_intact`: a store that mirrors an ideal heap in which it stands is found intact.
-/
import Tenure.Proofs.IdealLists
import Tenure.Proofs.TrackedStores
import Tenure.Workload.Sample

namespace Tenure

/-! ## Steps that succeed -/

namespace EndsWell

variable {α β : Type} {cause : Store → Prop} {s t : Store} {a : α} {f : α → Attempt β}
  {Q : β → Store → Prop}

/-- An action on the store. -/
theorem call {x : Action Store α} (hx : x s = .ok a t) (hf : EndsWell cause (f a) t Q) :
    EndsWell cause ((liftM x : Attempt α) >>= f) s Q :=
  .step (Action.bind_eq_ok_iff.2 ⟨a, t, hx, rfl⟩) hf

theorem calls {x : Action Store α} {P : Store → Prop} (hx : ∃ t, x s = .ok a t ∧ P t)
    (hf : ∀ t, P t → EndsWell cause (f a) t Q) : EndsWell cause ((liftM x : Attempt α) >>= f) s Q := by
  obtain ⟨t, hx, ht⟩ := hx
  exact .call hx (hf t ht)

/-- A number or an address that has to fit. -/
theorem fits {x : Except Fault α} (hx : x = .ok a) (hf : EndsWell cause (f a) s Q) :
    EndsWell cause ((liftM x : Attempt α) >>= f) s Q := by
  subst hx
  exact .step rfl hf

/-- A thing that is there. -/
theorem require {found : Option α} {finding : Corruption} (hx : found = some a)
    (hf : EndsWell cause (f a) s Q) : EndsWell cause (Attempt.require found finding >>= f) s Q := by
  subst hx
  exact .step rfl hf

end EndsWell

theorem Address.offset_of_block {p : Address} {count : Nat} {block : List Address}
    (hb : p.block count = .ok block) {k : Nat} {q : Address} (hq : block[k]? = some q) :
    p.offset k = .ok q := by
  obtain ⟨hspace, hpos⟩ := (getElem?_block hb).2 k q hq
  have hlt := q.position_lt
  have hfits : Word.add p.position k = .ok (p.position + k) :=
    Word.add_eq_ok_iff.2 ⟨rfl, by have : limit < Word.limit := (by decide); omega⟩
  rw [offset, hfits, ok_bind]
  exact make_eq_ok_iff.2 ⟨hspace, hpos⟩

namespace Store.Tracks

variable {b : Bounds} {left count : Nat} {s : Store} {R : Address → Nat → Prop} {i : Ideal}
  {p : Address} {n : Nat}

/-- The cells of a new block are found by counting on from the first. -/
theorem exists_offset {block : List Address} (hb : p.block count = .ok block)
    (hR : List.Forall₂ R block (i.block count)) {k : Nat} (hk : k < count) :
    ∃ q, p.offset k = .ok q ∧ R q (i.cells.size + k) := by
  have hlen : k < block.length := by
    rw [(Address.getElem?_block hb).1]
    exact hk
  have hpair := hR.get hlen (hR.length_eq ▸ hlen)
  refine ⟨block[k], Address.offset_of_block hb (List.getElem?_eq_getElem hlen), ?_⟩
  simpa [Ideal.block] using hpair

theorem first {block : List Address} (hb : p.block count = .ok block)
    (hR : List.Forall₂ R block (i.block count)) (hcount : 0 < count) : R p i.cells.size := by
  obtain ⟨q, hq, hqn⟩ := exists_offset hb hR hcount
  have hqp : q = p := by
    obtain ⟨sum, hsum, hmake⟩ := bind_eq_ok_iff.1 hq
    obtain ⟨hspace, hpos⟩ := Address.make_eq_ok_iff.1 hmake
    exact Address.ext_position hspace (hpos.trans (Word.add_eq_ok_iff.1 hsum).1.symm)
  rw [← hqp]
  exact hqn

/-- An allocation is harmless if it is refused, and else there are new cells. -/
theorem allocating (left count : Nat) {β : Type} {f : Address → Attempt β} {Q : β → Store → Prop}
    (h : Tracks b (left + count) s R i)
    (hf : ∀ p block t R', Tracks b left t R' (i.grow count) → p.block count = .ok block →
      List.Forall₂ R' block (i.block count) → EndsWell (Spent b) (f p) t Q) :
    EndsWell (Spent b) (Attempt.ofHeap (Store.allocate count) >>= f) s Q := by
  refine .bind (.ofHeap h.allocate fun _ _ hp => hp) ?_
  rintro p t ⟨-, R', block, ht, hb, hR⟩
  exact hf p block t R' ht hb hR

/-- A further root, unless there is no serial number for it. -/
theorem rooting {β : Type} {f : RootId → Attempt β} {Q : β → Store → Prop} (h : Tracks b left s R i)
    (hpn : R p n) (hids : i.next ≤ b.ids)
    (hf : ∀ t, Tracks b left t R
      { i with roots := i.roots ++ [(⟨i.next⟩, n)], next := i.next + 1 } →
        EndsWell (Spent b) (f ⟨i.next⟩) t Q) :
    EndsWell (Spent b) ((liftM (Store.addRoot p) : Attempt RootId) >>= f) s Q := by
  refine .bind (.lift (h.addRoot hpn hids)) ?_
  rintro _ t ⟨rfl, ht⟩
  exact hf t ht

theorem share {v : ValueId} (h : Tracks b left s R i) (hv : 0 < b.outside v) (hpn : R p n)
    (half : Half) : ∃ t, Sample.share p half v s = .ok () t ∧
      Tracks (b.put v) left t R (i.write n half (.datum ⟨.value v, rfl⟩)) := by
  obtain ⟨t, hw, ht⟩ := (h.retain hv).writeValue hpn half
  exact ⟨t, Action.bind_eq_ok_iff.2 ⟨(), _, rfl, hw⟩, ht⟩

end Store.Tracks

/-! ## Making the structure -/

namespace Sample

variable {b : Bounds} {left : Nat} {s : Store} {R : Address → Nat → Prop} {i i' : Ideal}
  {hello : SymbolId} {linked orphan : ValueId}

/-- What the cars of the five cells hold. -/
def payloads (d : Sample) : List Datum :=
  [⟨.symbol d.hello, rfl⟩, ⟨.int 1, rfl⟩, ⟨.value d.linked, rfl⟩, ⟨.double threePointTwo, rfl⟩,
    ⟨.string "world", rfl⟩]

/-- The first cells of the ideal heap make up the structure, which has the first roots. -/
structure Stands (d : Sample) (i : Ideal) : Prop where
  leads : i.Leads (some 0) [0, 1, 2, 3, 4]
  cars : List.Forall₂ (fun n x => i.slot? n .car = some (.datum x)) [0, 1, 2, 3, 4] d.payloads
  head : d.head = ⟨0⟩
  second : d.second = ⟨1⟩
  fourth : d.fourth = ⟨2⟩

/-- The roots of the structure. -/
def anchors : List (RootId × Nat) := [(⟨0⟩, 0), (⟨1⟩, 1), (⟨2⟩, 3)]

theorem Stands.extend {d : Sample} (h : d.Stands i) (he : i.Extends i') : d.Stands i' :=
  { h with
    leads := h.leads.extend he
    cars := h.cars.imp fun _ _ => he.eq_some }

theorem run_rooted {id : RootId} {p : Address} (h : s.heap.roots.get? id = some p) :
    (rooted id).run s = .ok (.ok p) s := by
  show (Attempt.require (s.heap.roots.get? id) _).run s = _
  rw [h]
  rfl

/-- The writes that make the structure of six cells. -/
def furnish (i : Ideal) (hello : SymbolId) (linked orphan : ValueId) : Ideal :=
  let i := (i.write 0 .car (.datum ⟨.symbol hello, rfl⟩)).write 0 .cdr (.ref 1)
  let i := (i.write 1 .car (.datum ⟨.int 1, rfl⟩)).write 2 .car (.datum ⟨.value linked, rfl⟩)
  let i := (i.write 2 .cdr (.ref 3)).write 3 .car (.datum ⟨.double threePointTwo, rfl⟩)
  let i := (i.write 3 .cdr (.ref 4)).write 4 .car (.datum ⟨.string "world", rfl⟩)
  let i := (i.write 4 .cdr (.datum ⟨.empty, Slot.ref?_empty⟩)).write 5 .car (.datum ⟨.value orphan, rfl⟩)
  i.write 5 .cdr (.datum ⟨.empty, Slot.ref?_empty⟩)

theorem stands_furnish (hsize : i.cells.size = 6) (hlink : i.slot? 1 .cdr = some (.ref 2)) :
    Stands ⟨⟨0⟩, ⟨1⟩, ⟨2⟩, hello, linked, orphan⟩ (furnish i hello linked orphan) := by
  refine ⟨?_, ?_, rfl, rfl, rfl⟩
  · simp [Ideal.Leads, Ideal.next?_eq, furnish, Ideal.slot?_write, hsize, hlink, Payload.ref?]
  · simp [payloads, furnish, Ideal.slot?_write, hsize]

/-- The ideal heap with the cells allocated and the roots registered. -/
def shell : Ideal where
  cells := (((({} : Ideal).grow 1).grow 2).write 1 .cdr (.ref 2)).grow 3 |>.cells
  roots := anchors
  next := 3

theorem endsWell_assemble (h : s.Tracks b (left + 6) R {}) (hids : 2 ≤ b.ids) (hello : SymbolId)
    (linked orphan : ValueId) (hlinked : 0 < b.outside linked) (horphan : 0 < b.outside orphan) :
    EndsWell (Store.Spent b) (assemble hello linked orphan) s fun d t =>
      ∃ R, t.Tracks ((b.put linked).put orphan) left R (furnish shell hello linked orphan) ∧
        d = ⟨⟨0⟩, ⟨1⟩, ⟨2⟩, hello, linked, orphan⟩ := by
  unfold assemble
  refine h.allocating (left + 5) 1 fun a block s R h hb hR => ?_
  have ha : R a 0 := Store.Tracks.first hb hR Nat.one_pos
  refine h.rooting ha (Nat.zero_le _) fun s h => ?_
  refine h.allocating (left + 3) 2 fun x block s R h hb hR => ?_
  have hx : R x 1 := Store.Tracks.first hb hR Nat.two_pos
  obtain ⟨x₁, hoffset, hx₁⟩ := Store.Tracks.exists_offset hb hR Nat.one_lt_two
  refine h.rooting hx (Nat.le_of_succ_le hids) fun s h => ?_
  refine .fits hoffset ?_
  refine .calls (h.writeRef hx .cdr hx₁) fun s h => ?_
  refine h.allocating left 3 fun c block s R h hb hR => ?_
  have hc : R c 3 := Store.Tracks.first hb hR (by decide)
  obtain ⟨c₁, hoffset₁, hc₁⟩ := Store.Tracks.exists_offset hb hR (k := 1) (by decide)
  obtain ⟨c₂, hoffset₂, hc₂⟩ := Store.Tracks.exists_offset hb hR (k := 2) (by decide)
  refine h.rooting hc hids fun s h => ?_
  replace h : Store.Tracks b left s R shell := h
  -- the first cells may have moved in between
  obtain ⟨a, hroot, ha⟩ := h.root (show shell.roots.lookup ⟨0⟩ = some 0 from rfl)
  refine .step (run_rooted hroot) ?_
  obtain ⟨x, hroot, hx⟩ := h.root (show shell.roots.lookup ⟨1⟩ = some 1 from rfl)
  refine .step (run_rooted hroot) ?_
  obtain ⟨cell, -, hcell, -, -⟩ := h.mirrors.cell hx
  obtain ⟨x₁, hslot, hx₁⟩ := h.mirrors.slot_of_ref hx hcell .cdr (m := 2) rfl
  refine .call (a := cell) (by rw [Store.fetch, hcell]) ?_
  refine .require (a := x₁) (by rw [show cell.cdr = .ref x₁ from hslot]; rfl) ?_
  refine .fits hoffset₁ (.fits hoffset₂ ?_)
  refine .calls (h.writeDatum ha .car ⟨.symbol hello, rfl⟩ rfl) fun s h => ?_
  refine .calls (h.writeRef ha .cdr hx) fun s h => ?_
  refine .calls (h.writeDatum hx .car ⟨.int 1, rfl⟩ rfl) fun s h => ?_
  refine .calls (h.share hlinked hx₁ .car) fun s h => ?_
  refine .calls (h.writeRef hx₁ .cdr hc) fun s h => ?_
  refine .calls (h.writeDatum hc .car ⟨.double threePointTwo, rfl⟩ rfl) fun s h => ?_
  refine .calls (h.writeRef hc .cdr hc₁) fun s h => ?_
  refine .calls (h.writeDatum hc₁ .car ⟨.string "world", rfl⟩ rfl) fun s h => ?_
  refine .calls (h.writeDatum hc₁ .cdr ⟨.empty, rfl⟩ rfl) fun s h => ?_
  refine .calls (h.share horphan hc₂ .car) fun s h => ?_
  refine .calls (h.writeDatum hc₂ .cdr ⟨.empty, rfl⟩ rfl) fun s h => ?_
  exact .of_ok rfl ⟨R, h, rfl⟩

theorem openFile_spec (h : s.Tracks b left R i) (path : String) :
    ∃ t, openFile path s = .ok ⟨s.values.entries.size⟩ t ∧
      t.Tracks (b.more ⟨s.values.entries.size⟩) left R i ∧
        t.values.entries.size = s.values.entries.size + 1 := by
  have hlog : (s.log (.fileOpened path)).Tracks b left R i := h.log _ rfl
  exact ⟨_, rfl, hlog.newValue (.file path) nofun, Array.size_push _⟩

/-- What is known of counts when the two files are open and each is in a cell. -/
def furnished (b : Bounds) : Bounds := (((b.more ⟨0⟩).more ⟨1⟩).put ⟨0⟩).put ⟨1⟩

/-- **Making the sample structure** ends with a harmless error, or it stands. -/
theorem build_yields (h : s.Tracks b (left + 6) R {}) (hids : 2 ≤ b.ids)
    (hempty : s.values.entries.size = 0) (symbols : SymbolTable) :
    (build symbols).Yields (Store.Spent b) s fun r t =>
      match r.2 with
      | .ok d => ∃ R i, t.Tracks (furnished b) left R i ∧ i.roots = anchors ∧ i.next = 3 ∧
          d.Stands i ∧ d.linked = ⟨0⟩
      | .error e => e.Harmless := by
  unfold build
  obtain ⟨t, hopen, ht, hsize⟩ := openFile_spec h "linked.dat"
  rw [hempty] at hopen ht hsize
  refine .step hopen ?_
  obtain ⟨u, hopen, hu, -⟩ := openFile_spec ht "orphan.dat"
  rw [hsize] at hopen hu
  refine .step hopen ?_
  have hassemble := endsWell_assemble hu hids (symbols.intern "hello").2 ⟨0⟩ ⟨1⟩ (by simp) (by simp)
  refine .bind (hassemble.because fun t ht => Store.Spent.congr ht rfl rfl) ?_
  rintro (e | d) t hd
  · exact .of_ok rfl hd
  · obtain ⟨R', ht, rfl⟩ := hd
    exact .of_ok rfl ⟨R', _, ht, rfl, rfl, stands_furnish rfl rfl, rfl⟩

/-! ## Checking the structure -/

theorem payloadsIntact_payloads (d : Sample) : d.payloadsIntact (d.payloads.map (·.slot)) = true := by
  have hword : Text.BinaryFormat.double.sameNumber threePointTwo.toNat threePointTwo.toNat = true := by
    decide
  simp [payloadsIntact, payloads, Slot.sameContent, hword]

/-- What the cars of some cells hold is what the ideal heap has there. -/
theorem cars_eq {h : Heap} (hm : Mirrors R h i) {ps : List Address} {ns : List Nat} {xs : List Datum}
    (hps : List.Forall₂ R ps ns)
    (hxs : List.Forall₂ (fun n x => i.slot? n .car = some (.datum x)) ns xs) :
    ps.map (fun p => ((h.get? p).getD .blank).car) = xs.map (·.slot) := by
  induction hps generalizing xs with
  | nil =>
    cases hxs
    rfl
  | @cons p n ps ns hpn _ ih =>
    obtain _ | ⟨hx, hrest⟩ := hxs
    obtain ⟨c, -, hc, -, -⟩ := hm.cell hpn
    rw [List.map_cons, List.map_cons, ih hrest, hc]
    exact congrArg (· :: _) (hm.slot_of_datum hpn hc hx)

/-- The file in the third cell is known to the client and to the cell, and to nobody else. -/
theorem count_linked (h : s.Tracks b left R i) {p : Address} {n : Nat} (hpn : R p n) {v : ValueId}
    (hn : i.slot? n .car = some (.datum ⟨.value v, rfl⟩)) (hout : 0 < b.outside v)
    (hceiling : b.ceiling v ≤ 2) : s.values.count v = 2 := by
  obtain ⟨c, -, hc, -, -⟩ := h.mirrors.cell hpn
  have hcar : c.car = .value v := h.mirrors.slot_of_datum hpn hc hn
  have hcell : 0 < c.uses v := by simp [Cell.uses, hcar]
  have hheap := Heap.uses_get?_le (v := v) hc
  have hbalanced := h.balanced.count v
  have hmost := h.count v
  omega

/-- What is checked is true: the list has the payloads, two more roots are on its cells, and the first
    file has two references. -/
theorem verify_eq_intact_of {d : Sample} {s : Store} {p : Address} {cells : List Address}
    (hhead : d.head? s.heap = some p) (hwalk : s.heap.walkAll p = some cells)
    (hcars : cells.map (fun q => ((s.heap.get? q).getD .blank).car) = d.payloads.map (·.slot))
    (hsecond : s.heap.roots.get? d.second = cells[1]?) (hfourth : s.heap.roots.get? d.fourth = cells[3]?)
    (hlinked : s.values.count d.linked = 2) : d.verify s = .intact := by
  have hlength : cells.length = 5 := by
    rw [← List.length_map, hcars]
    rfl
  have hkinds : (d.payloads.map (·.slot)).map (·.kind) = expectedKinds := rfl
  simp [verify, hhead, hwalk, hlength, hcars, hkinds, d.payloadsIntact_payloads, hsecond, hfourth,
    hlinked]

theorem verify_eq_intact {d : Sample} (h : s.Tracks b left R i) (hd : d.Stands i)
    {others : List (RootId × Nat)} (hroots : i.roots = anchors ++ others)
    (hout : 0 < b.outside d.linked) (hceiling : b.ceiling d.linked ≤ 2) : d.verify s = .intact := by
  have hlookup : ∀ id n, anchors.lookup id = some n → ∃ p, s.heap.roots.get? id = some p ∧ R p n := by
    intro id n hid
    exact h.root (by rw [hroots, List.lookup_append, hid]; rfl)
  obtain ⟨p, hroot, hp⟩ := hlookup d.head 0 (by rw [hd.head]; rfl)
  obtain ⟨p₁, hroot₁, hp₁⟩ := hlookup d.second 1 (by rw [hd.second]; rfl)
  obtain ⟨p₃, hroot₃, hp₃⟩ := hlookup d.fourth 3 (by rw [hd.fourth]; rfl)
  obtain ⟨cells, hwalk, hcells⟩ := h.mirrors.walkAll hp hd.leads
  have hcars := cars_eq h.mirrors hcells hd.cars
  obtain _ | ⟨-, _ | ⟨hq₁, _ | ⟨hq₂, _ | ⟨hq₃, _ | ⟨-, ⟨⟩⟩⟩⟩⟩⟩ := hcells
  have hlinked : s.values.count d.linked = 2 := by
    obtain _ | ⟨-, _ | ⟨-, _ | ⟨hcar, -⟩⟩⟩ := hd.cars
    exact count_linked h hq₂ hcar hout hceiling
  have hsecond : s.heap.roots.get? d.second = some _ :=
    hroot₁.trans (congrArg some (h.mirrors.injective hp₁ hq₁))
  have hfourth : s.heap.roots.get? d.fourth = some _ :=
    hroot₃.trans (congrArg some (h.mirrors.injective hp₃ hq₃))
  exact verify_eq_intact_of hroot hwalk hcars hsecond hfourth hlinked

end Sample

end Tenure
