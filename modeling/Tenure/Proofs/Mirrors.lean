/-
  Tenure — heaps that mirror an ideal heap.

  * `Mirrors`: some addresses of a heap stand for cells of an ideal heap, one to one,
    with the same contents, and the roots hold such addresses.
  * `Mirrors.write`, `Mirrors.grow`, `Mirrors.link`, `Mirrors.addRoot`, `Mirrors.setRoot`,
    `Mirrors.eraseRoot`: operations on both heaps leave it so.
  * `Mirrors.relocate`: so does moving the cells of one.
  * `Mirrors.read_eq`, `Mirrors.meet_iff`: from the roots the two heaps look the same.
-/
import Mathlib.Computability.Primrec.List
import Mathlib.Data.List.Forall2
import Tenure.Proofs.Ideal
import Tenure.Proofs.Allocation
import Tenure.Proofs.CellMoves
import Tenure.Proofs.Relocation

namespace Tenure

/-! ## Payloads -/

/-- Two payloads that are the same but for addresses, which stand for cells. -/
inductive Payload.Agrees (R : Address → Nat → Prop) : Payload Address → Payload Nat → Prop
  | ref {p n} : R p n → Agrees R (.ref p) (.ref n)
  | datum (d : Datum) : Agrees R (.datum d) (.datum d)

namespace Payload

variable {R : Address → Nat → Prop} {a : Payload Address} {b : Payload Nat}

theorem Agrees.imp (h : a.Agrees R b) {R' : Address → Nat → Prop}
    (hR : ∀ p n, a.ref? = some p → R p n → R' p n) : a.Agrees R' b := by
  cases h with
  | ref h => exact .ref (hR _ _ rfl h)
  | datum d => exact .datum d

theorem Agrees.seen_eq (h : a.Agrees R b) : a.seen = b.seen := by
  cases h <;> rfl

theorem Agrees.ref? (h : a.Agrees R b) : Option.Rel R a.ref? b.ref? := by
  cases h with
  | ref h => exact .some h
  | datum d => exact .none

/-- The addresses have changed on one side. -/
theorem Agrees.map (h : a.Agrees R b) {f : Address → Address} {R' : Address → Nat → Prop}
    (hR : ∀ p n, a.ref? = some p → R p n → R' (f p) n) : (a.map f).Agrees R' b := by
  cases h with
  | ref h => exact .ref (hR _ _ rfl h)
  | datum d => exact .datum d

end Payload

namespace Slot

theorem payload_of_ref? {s : Slot} {p : Address} (h : s.ref? = some p) : s.payload = .ref p := by
  unfold payload
  split
  · rename_i q hq
    rw [h] at hq
    cases hq
    rfl
  · rename_i hq
    rw [h] at hq
    cases hq

theorem payload_of_ref?_eq_none {s : Slot} (h : s.ref? = none) : s.payload = .datum ⟨s, h⟩ := by
  unfold payload
  split
  · rename_i q hq
    rw [h] at hq
    cases hq
  · rfl

theorem ref?_payload (s : Slot) : s.payload.ref? = s.ref? := by
  cases h : s.ref? with
  | some p =>
    rw [payload_of_ref? h]
    rfl
  | none =>
    rw [payload_of_ref?_eq_none h]
    rfl

theorem payload_mapRef (f : Address → Address) (s : Slot) : (s.mapRef f).payload = s.payload.map f := by
  cases h : s.ref? with
  | some p =>
    have hf : (s.mapRef f).ref? = some (f p) := by rw [ref?_mapRef, h, Option.map_some]
    rw [payload_of_ref? h, payload_of_ref? hf]
    rfl
  | none =>
    have hs : s.mapRef f = s := by
      cases s <;> first | rfl | cases h
    rw [hs, payload_of_ref?_eq_none h]
    rfl

end Slot

theorem Payload.payload_slot (a : Payload Address) : a.slot.payload = a := by
  cases a with
  | ref p => exact Slot.payload_of_ref? rfl
  | datum d => exact Slot.payload_of_ref?_eq_none d.noRef

theorem Cell.slot_store (c : Cell) (half half' : Half) (s : Slot) :
    (c.store half s).slot half' = if half' = half then s else c.slot half' := by
  rw [store, Slot.store_eq, slot_setSlot]

private theorem getElem?_append_replicate {α : Type} {cells : Array α} {count k : Nat} {c : α}
    (hle : cells.size ≤ k) (hlt : k < cells.size + count) :
    (cells ++ Array.replicate count c)[k]? = some c := by
  rw [Array.getElem?_append_right hle, Array.getElem?_replicate, if_pos (by omega)]

private theorem exists_of_mem_left {α β : Type} {P : α → β → Prop} {l : List α} {l' : List β}
    (h : List.Forall₂ P l l') {a : α} (ha : a ∈ l) : ∃ b, P a b := by
  induction h with
  | nil => cases ha
  | cons hab _ ih =>
    rcases List.mem_cons.1 ha with rfl | ha
    · exact ⟨_, hab⟩
    · exact ih ha

/-! ## Heaps -/

namespace Heap

variable {h : Heap} {p : Address} {c : Cell}

theorem position_lt_of_get? (hc : h.get? p = some c) (hp : p.space = h.side.space) :
    p.position < h.active.size := by
  rw [get?_of_active _ hp] at hc
  exact (Array.getElem?_eq_some_iff.1 hc).1

/-- Appending cells leaves those that are there. -/
theorem get?_append (hc : h.get? p = some c) {cells : Array Cell} :
    get? { h with active := h.active ++ cells } p = some c := by
  by_cases hp : p.space = h.side.space
  · have hlt := position_lt_of_get? hc hp
    rw [get?_of_active _ hp] at hc
    rw [get?_of_active _ (by exact hp)]
    simpa [Array.getElem?_append, hlt] using hc
  · by_cases hp' : p.isOld
    · rw [get?_eq_cellAt _ hp'] at hc ⊢
      exact hc
    · rw [get?_of_elsewhere _ hp' hp] at hc
      cases hc

end Heap

/-- The addresses of `h` that `R` relates to cells of `i` stand for them, one to one, and the roots
    hold such addresses. -/
structure Mirrors (R : Address → Nat → Prop) (h : Heap) (i : Ideal) : Prop where
  functional : ∀ {p n m}, R p n → R p m → n = m
  injective : ∀ {p q n}, R p n → R q n → p = q
  cell : ∀ {p n}, R p n → ∃ c d, h.get? p = some c ∧ i.cells[n]? = some d ∧
    ∀ half, (c.slot half).payload.Agrees R (d half)
  roots : List.Forall₂ (fun e e' => e.1 = e'.1 ∧ R e.2 e'.2) h.roots.entries i.roots
  next : h.roots.next = i.next

namespace Mirrors

variable {R : Address → Nat → Prop} {h h' : Heap} {i : Ideal} {p : Address} {n : Nat}

theorem empty (settings : Settings) (registry : Nat) :
    Mirrors (fun _ _ => False) (.make settings registry) {} where
  functional h := h.elim
  injective h := h.elim
  cell h := h.elim
  roots := .nil
  next := rfl

theorem congr_heap (hm : Mirrors R h i) (hget : ∀ p, h'.get? p = h.get? p)
    (hroots : h'.roots = h.roots) : Mirrors R h' i where
  functional := hm.functional
  injective := hm.injective
  cell hpn := by
    rw [hget]
    exact hm.cell hpn
  roots := by
    rw [hroots]
    exact hm.roots
  next := by
    rw [hroots]
    exact hm.next

/-! ### Cells -/

theorem contains (hm : Mirrors R h i) (hpn : R p n) : h.contains p := by
  obtain ⟨c, d, hc, -, -⟩ := hm.cell hpn
  exact Heap.contains_iff.2 ⟨c, hc⟩

theorem lt_size (hm : Mirrors R h i) (hpn : R p n) : n < i.cells.size := by
  obtain ⟨c, d, -, hd, -⟩ := hm.cell hpn
  exact (Array.getElem?_eq_some_iff.1 hd).1

theorem write (hm : Mirrors R h i) (hpn : R p n) {c : Cell} (hc : h.get? p = some c) {half : Half}
    {s : Slot} {b : Payload Nat} (hs : s.payload.Agrees R b) :
    Mirrors R (h.put p (c.store half s)) (i.write n half b) where
  functional := hm.functional
  injective := hm.injective
  cell {q m} hqm := by
    obtain ⟨c', d, hc', hd, hagree⟩ := hm.cell hqm
    by_cases hq : q = p
    · subst hq
      rw [hc] at hc'
      cases hc'
      have hmn := hm.functional hqm hpn
      subst hmn
      refine ⟨_, _, Heap.get?_put_self hc _, by simp [Ideal.write, Array.getElem?_modify, hd]; rfl, ?_⟩
      intro half'
      rw [Cell.slot_store]
      by_cases hh : half' = half
      · rw [if_pos hh, if_pos hh]
        exact hs
      · rw [if_neg hh, if_neg hh]
        exact hagree half'
    · have hmn : n ≠ m := fun hnm => hq (hm.injective hqm (hnm ▸ hpn))
      refine ⟨c', d, (Heap.get?_put_of_ne hq _).trans hc', ?_, hagree⟩
      simp [Ideal.write, Array.getElem?_modify, hmn, hd]
  roots := by
    rw [Heap.roots_put]
    exact hm.roots
  next := by
    rw [Heap.roots_put]
    exact hm.next

theorem link (hm : Mirrors R h i) {block : List Address} {ns : List Nat}
    (hb : List.Forall₂ R block ns) : Mirrors R (h.link block) (i.link ns) := by
  induction hb generalizing h i with
  | nil => exact hm
  | @cons p n block ns hpn hrest ih =>
    cases hrest with
    | nil => exact hm
    | @cons q m block ns hqm hrest =>
      obtain ⟨c, d, hc, -, -⟩ := hm.cell hpn
      have href : (Slot.ref q).payload.Agrees R (.ref m) := by
        rw [Slot.payload_of_ref? rfl]
        exact .ref hqm
      have hwrite : Mirrors R (h.put p (c.store .cdr (.ref q))) (i.write n .cdr (.ref m)) :=
        hm.write hpn hc href
      have hmodify : h.modify p (fun c => c.store .cdr (.ref q)) = h.put p (c.store .cdr (.ref q)) := by
        rw [Heap.modify, hc]
      rw [Heap.link, Ideal.link, hmodify]
      exact ih hwrite

/-- A new cell of the heap stands for a new cell of the ideal heap, in order. -/
structure New (h : Heap) (i : Ideal) (count : Nat) (p : Address) (n : Nat) : Prop where
  space : p.space = h.side.space
  le : h.active.size ≤ p.position
  lt : p.position < h.active.size + count
  sum : n + h.active.size = i.cells.size + p.position

theorem not_new_of_left (hm : Mirrors R h i) {count m : Nat} (hpn : R p n) :
    ¬ New h i count p m := by
  rintro ⟨hspace, hle, -, -⟩
  obtain ⟨c, d, hc, -, -⟩ := hm.cell hpn
  have := Heap.position_lt_of_get? hc hspace
  omega

theorem not_new_of_right (hm : Mirrors R h i) {count : Nat} {q : Address} (hpn : R p n) :
    ¬ New h i count q n := by
  rintro ⟨-, hle, -, hsum⟩
  have := hm.lt_size hpn
  omega

/-- Blank cells stand for blank cells. -/
theorem cell_new {count : Nat} (hnew : New h i count p n) :
    ∃ c d, Heap.get? { h with active := h.active ++ Array.replicate count .blank } p = some c ∧
      (i.grow count).cells[n]? = some d ∧ ∀ half, (c.slot half).payload.Agrees R (d half) := by
  obtain ⟨hspace, hle, hlt, hsum⟩ := hnew
  refine ⟨.blank, Ideal.blank, ?_, ?_, ?_⟩
  · rw [Heap.get?_of_active _ (by exact hspace)]
    exact getElem?_append_replicate hle hlt
  · exact getElem?_append_replicate (by omega) (by omega)
  · intro half
    have hempty : Cell.blank.slot half = .empty := by cases half <;> rfl
    rw [hempty, Slot.payload_of_ref?_eq_none rfl]
    exact .datum _

/-- The addresses of a new block stand for the numbers of the new ideal cells. -/
theorem forall₂_new {count : Nat} {first : Address} (hspace : first.space = h.side.space)
    (hpos : first.position = h.active.size) {block : List Address}
    (hb : first.block count = .ok block) :
    List.Forall₂ (New h i count) block (i.block count) := by
  obtain ⟨hlen, hget⟩ := Address.getElem?_block hb
  refine List.forall₂_iff_get.2 ⟨by simp [hlen, Ideal.block], ?_⟩
  intro k h₁ h₂
  obtain ⟨hs, hk⟩ : (block.get ⟨k, h₁⟩).space = first.space ∧
      (block.get ⟨k, h₁⟩).position = first.position + k := hget k _ (List.getElem?_eq_getElem h₁)
  have hn : (i.block count).get ⟨k, h₂⟩ = i.cells.size + k := by simp [Ideal.block]
  refine ⟨hs.trans hspace, ?_, ?_, ?_⟩ <;> omega

/-- New cells stand for the new ideal cells, and the others for what they stood for. -/
theorem grow (hm : Mirrors R h i) {count : Nat} {first : Address}
    (hg : h.grow count = .ok (h', first)) :
    ∃ R', Mirrors R' h' (i.grow count) ∧ (∀ p n, R p n → R' p n) ∧
      ∀ block, first.block count = .ok block → List.Forall₂ R' block (i.block count) := by
  obtain ⟨q, hq, hg⟩ := bind_eq_ok_iff.1 hg
  cases hg
  obtain ⟨hspace, hpos⟩ := Address.make_eq_ok_iff.1 hq
  refine ⟨fun p n => R p n ∨ New h i count p n, ?_, fun p n h => Or.inl h, fun block hb => ?_⟩
  · refine ⟨?_, ?_, ?_, ?_, hm.next⟩
    · rintro p n m (hn | hn) (hm' | hm')
      · exact hm.functional hn hm'
      · exact absurd hm' (hm.not_new_of_left hn)
      · exact absurd hn (hm.not_new_of_left hm')
      · have := hn.sum
        have := hm'.sum
        omega
    · rintro p q n (hp | hp) (hq | hq)
      · exact hm.injective hp hq
      · exact absurd hq (hm.not_new_of_right hp)
      · exact absurd hp (hm.not_new_of_right hq)
      · have := hp.sum
        have := hq.sum
        exact Address.ext_position (hp.space.trans hq.space.symm) (by omega)
    · rintro p n (hpn | hnew)
      · obtain ⟨c, d, hc, hd, hagree⟩ := hm.cell hpn
        refine ⟨c, d, Heap.get?_append hc, ?_, fun half => (hagree half).imp fun _ _ _ h => Or.inl h⟩
        have := hm.lt_size hpn
        simpa [Ideal.grow, Array.getElem?_append, this] using hd
      · exact cell_new hnew
    · exact hm.roots.imp fun e e' he => ⟨he.1, Or.inl he.2⟩
  · exact (forall₂_new hspace hpos hb).imp fun _ _ => Or.inr

/-! ### Roots -/

theorem addRoot (hm : Mirrors R h i) (hpn : R p n) :
    Mirrors R (h.mapRoots (·.insert p))
      { i with roots := i.roots ++ [(⟨i.next⟩, n)], next := i.next + 1 } where
  functional := hm.functional
  injective := hm.injective
  cell := hm.cell
  roots := List.rel_append hm.roots (.cons ⟨congrArg RootId.mk hm.next, hpn⟩ .nil)
  next := congrArg (· + 1) hm.next

theorem setRoot (hm : Mirrors R h i) (hpn : R p n) (id : RootId) :
    Mirrors R (h.mapRoots (·.set id p))
      { i with roots := i.roots.map fun e => if e.1 = id then (id, n) else e } where
  functional := hm.functional
  injective := hm.injective
  cell := hm.cell
  roots := by
    refine List.rel_map (fun e e' he => ?_) hm.roots
    rw [← he.1]
    split
    · exact ⟨rfl, hpn⟩
    · exact he
  next := hm.next

theorem eraseRoot (hm : Mirrors R h i) (id : RootId) :
    Mirrors R (h.mapRoots (·.erase id)) { i with roots := i.roots.filter (·.1 != id) } where
  functional := hm.functional
  injective := hm.injective
  cell := hm.cell
  roots := by
    refine List.rel_filter (fun e e' he => ?_) hm.roots
    show (e.1 != id) = true ↔ (e'.1 != id) = true
    rw [he.1]
  next := hm.next

theorem root (hm : Mirrors R h i) (id : RootId) :
    Option.Rel R (h.roots.get? id) (i.roots.lookup id) := by
  have key : ∀ {l : List (RootId × Address)} {l' : List (RootId × Nat)},
      List.Forall₂ (fun e e' => e.1 = e'.1 ∧ R e.2 e'.2) l l' →
        Option.Rel R (l.lookup id) (l'.lookup id) := by
    intro l l' hl
    induction hl with
    | nil => exact .none
    | @cons e e' _ _ he _ ih =>
      rw [List.lookup_cons, List.lookup_cons, ← he.1]
      cases id == e.1 with
      | true => exact .some he.2
      | false => exact ih
  exact key hm.roots

/-! ### Paths -/

theorem next? (hm : Mirrors R h i) (hpn : R p n) (half : Half) :
    Option.Rel R (h.nextBy? p half) (i.next? n half) := by
  obtain ⟨c, d, hc, hd, hagree⟩ := hm.cell hpn
  rw [Heap.nextBy?, Ideal.next?, hc, hd, Option.bind_some, Option.bind_some, ← Slot.ref?_payload]
  exact (hagree half).ref?

theorem reach (hm : Mirrors R h i) (id : RootId) (path : List Half) :
    Option.Rel R (h.reach id path) (i.reach id path) := by
  have hstart := hm.root id
  unfold Heap.reach Ideal.reach
  generalize h.roots.get? id = a at hstart ⊢
  generalize i.roots.lookup id = b at hstart ⊢
  induction path generalizing a b with
  | nil => exact hstart
  | cons half path ih =>
    refine ih _ _ ?_
    cases hstart with
    | some hpn => exact hm.next? hpn half
    | none => exact .none

/-- **At the end of every path the same is read.** -/
theorem read_eq (hm : Mirrors R h i) (id : RootId) (path : List Half) (half : Half) :
    h.read id path half = i.read id path half := by
  have hreach := hm.reach id path
  rw [Heap.read, Ideal.read]
  generalize h.reach id path = a at hreach ⊢
  generalize i.reach id path = b at hreach ⊢
  cases hreach with
  | none => rfl
  | some hpn =>
    obtain ⟨c, d, hc, hd, hagree⟩ := hm.cell hpn
    rw [Option.bind_some, Option.bind_some, hc, hd, Option.map_some, Option.map_some,
      (hagree half).seen_eq]

/-- **Two paths that meet** do so in both heaps. -/
theorem meet_iff (hm : Mirrors R h i) (id id' : RootId) (path path' : List Half) :
    (∃ p, h.reach id path = some p ∧ h.reach id' path' = some p) ↔
      ∃ n, i.reach id path = some n ∧ i.reach id' path' = some n := by
  have hreach := hm.reach id path
  have hreach' := hm.reach id' path'
  generalize h.reach id path = a at hreach ⊢
  generalize h.reach id' path' = a' at hreach' ⊢
  generalize i.reach id path = b at hreach ⊢
  generalize i.reach id' path' = b' at hreach' ⊢
  constructor
  · rintro ⟨p, rfl, rfl⟩
    cases hreach with
    | some hn =>
      cases hreach' with
      | some hn' => exact ⟨_, rfl, by rw [hm.functional hn hn']⟩
  · rintro ⟨n, rfl, rfl⟩
    cases hreach with
    | some hp =>
      cases hreach' with
      | some hp' => exact ⟨_, rfl, by rw [hm.injective hp hp']⟩

/-! ### Moves -/

theorem exists_of_ref? (hm : Mirrors R h i) (hpn : R p n) {c : Cell} (hc : h.get? p = some c)
    {half : Half} {q : Address} (hq : (c.slot half).ref? = some q) : ∃ m, R q m := by
  obtain ⟨c', d, hc', -, hagree⟩ := hm.cell hpn
  rw [hc] at hc'
  cases hc'
  have hslot := (hagree half).ref?
  rw [Slot.ref?_payload, hq] at hslot
  generalize (d half).ref? = b at hslot
  cases hslot with
  | some hqm => exact ⟨_, hqm⟩

/-- All that the roots reach stands for something. -/
theorem exists_of_rooted (hm : Mirrors R h i) (hp : h.Rooted p) : ∃ n, R p n := by
  induction hp with
  | start hs _ =>
    obtain ⟨e, he, rfl⟩ := List.mem_map.1 hs
    obtain ⟨e', -, hn⟩ := exists_of_mem_left hm.roots he
    exact ⟨_, hn⟩
  | step _ hr _ ih =>
    obtain ⟨n, hn⟩ := ih
    obtain ⟨c, hc, hmem⟩ := hr
    obtain ⟨half, hq⟩ := Cell.mem_references_iff.1 hmem
    exact hm.exists_of_ref? hn hc hq

theorem noDangling (hm : Mirrors R h i) : h.NoDangling := by
  constructor
  · intro p hp
    obtain ⟨e, he, rfl⟩ := List.mem_map.1 hp
    obtain ⟨e', -, hn⟩ := exists_of_mem_left hm.roots he
    exact hm.contains hn
  · rintro p q hp ⟨c, hc, hmem⟩
    obtain ⟨n, hn⟩ := hm.exists_of_rooted hp
    obtain ⟨half, hq⟩ := Cell.mem_references_iff.1 hmem
    obtain ⟨m, hqm⟩ := hm.exists_of_ref? hn hc hq
    exact hm.contains hqm

/-- **Moving the cells** that the roots reach leaves the heap the same mirror. -/
theorem relocate (hm : Mirrors R h i) {f : Address → Address} (hrel : Heap.Relocates h f h')
    (hroots : h'.roots = h.roots.mapAddresses f) :
    Mirrors (fun q n => ∃ p, h.Rooted p ∧ R p n ∧ f p = q) h' i where
  functional := by
    rintro _ n m ⟨p, hp, hn, rfl⟩ ⟨q, hq, hqm, hqp⟩
    have := hrel.injective hq hp hqp
    subst this
    exact hm.functional hn hqm
  injective := by
    rintro _ _ n ⟨p, _, hp, rfl⟩ ⟨q, _, hq, rfl⟩
    rw [hm.injective hp hq]
  cell := by
    rintro _ n ⟨p, hp, hpn, rfl⟩
    obtain ⟨c, c', hc, hc', hsame⟩ := hrel.cell p hp
    obtain ⟨c₀, d, hc₀, hd, hagree⟩ := hm.cell hpn
    rw [hc] at hc₀
    cases hc₀
    refine ⟨c', d, hc', hd, ?_⟩
    intro half
    have hslot : c'.slot half = (c.slot half).mapRef f := by
      cases half with
      | car => exact hsame.1
      | cdr => exact hsame.2
    rw [hslot, Slot.payload_mapRef]
    refine (hagree half).map fun q m hq hqm => ⟨q, ?_, hqm, rfl⟩
    rw [Slot.ref?_payload] at hq
    exact hm.noDangling.rooted_step hp ⟨c, hc, Cell.mem_references_iff.2 ⟨half, hq⟩⟩
  roots := by
    rw [hroots]
    refine List.forall₂_map_left_iff.2 ?_
    obtain ⟨hlen, hzip⟩ := List.forall₂_iff_zip.1 hm.roots
    refine List.forall₂_iff_zip.2 ⟨hlen, fun {e e'} he => ⟨(hzip he).1, e.2, ?_, (hzip he).2, rfl⟩⟩
    exact hm.noDangling.rooted_root (List.mem_map_of_mem (List.of_mem_zip he).1)
  next := by
    rw [hroots]
    exact hm.next

end Mirrors

end Tenure
