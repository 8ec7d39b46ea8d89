/-
  Tenure — lists in an ideal heap, and walks along them.

  * `Ideal.slot?`: what a slot of an ideal cell holds, with a lemma for each operation.
  * `Ideal.Extends`: more cells, and the first ones the same.
  * `Trail`: what comes one after the other up to the end; `Trail.walkAll`: a trail of cells is walked.
  * `Ideal.Leads`: the cells of the list from a cell on, to its end.
  * `leads_link`: linking blank cells makes a list of them.
  * `Mirrors.walkAll`: in a heap that mirrors the ideal heap the list is walked to its end.
-/
import Mathlib.Data.List.Perm.Subperm
import Mathlib.Data.List.Nodup
import Tenure.Heap.Walk
import Tenure.Proofs.Mirrors

namespace Tenure

/-! ## Trails -/

section Trails

variable {α : Type} {next : α → Option α} {start : Option α} {as bs : List α} {a : α}

/-- What comes one after the other from some start on, up to the end. -/
def Trail (next : α → Option α) : Option α → List α → Prop
  | start, [] => start = none
  | start, a :: as => start = some a ∧ Trail next (next a) as

theorem Trail.functional (h : Trail next start as) (h' : Trail next start bs) : as = bs := by
  induction as generalizing start bs with
  | nil =>
    cases bs with
    | nil => rfl
    | cons b bs => cases (show start = none from h).symm.trans h'.1
  | cons a as ih =>
    obtain ⟨rfl, hrest⟩ := h
    cases bs with
    | nil => cases (show some a = none from h')
    | cons b bs =>
      obtain ⟨hb, hrest'⟩ := h'
      cases hb
      rw [ih hrest hrest']

theorem Trail.suffix (h : Trail next start as) (ha : a ∈ as) :
    ∃ bs, Trail next (some a) bs ∧ bs.length ≤ as.length := by
  induction as generalizing start with
  | nil => cases ha
  | cons b as ih =>
    obtain ⟨rfl, hrest⟩ := h
    rcases List.mem_cons.1 ha with rfl | ha
    · exact ⟨a :: as, ⟨rfl, hrest⟩, Nat.le_refl _⟩
    · obtain ⟨bs, hbs, hle⟩ := ih hrest ha
      exact ⟨bs, hbs, hle.trans (Nat.le_succ _)⟩

/-- A trail that ends does not come back. -/
theorem Trail.nodup (h : Trail next start as) : as.Nodup := by
  induction as generalizing start with
  | nil => exact .nil
  | cons a as ih =>
    obtain ⟨rfl, hrest⟩ := h
    refine List.nodup_cons.2 ⟨fun ha => ?_, ih hrest⟩
    obtain ⟨bs, hbs, hle⟩ := hrest.suffix ha
    have hall : Trail next (some a) (a :: as) := ⟨rfl, hrest⟩
    rw [hbs.functional hall, List.length_cons] at hle
    omega

end Trails

namespace Ideal

variable {i i' i'' : Ideal} {n m : Nat} {half half' : Half} {a : Payload Nat}

/-! ## Slots -/

/-- What a slot of a cell holds. -/
def slot? (i : Ideal) (n : Nat) (half : Half) : Option (Payload Nat) := i.cells[n]?.map (· half)

theorem next?_eq (i : Ideal) (n : Nat) (half : Half) :
    i.next? n half = (i.slot? n half).bind (·.ref?) := by
  rw [next?, slot?, Option.bind_map]
  rfl

theorem next?_of_ref (h : i.slot? n half = some (.ref m)) : i.next? n half = some m := by
  rw [next?_eq, h]
  rfl

theorem next?_of_datum {d : Datum} (h : i.slot? n half = some (.datum d)) : i.next? n half = none := by
  rw [next?_eq, h]
  rfl

theorem lt_size_of_slot? (h : i.slot? n half = some a) : n < i.cells.size := by
  obtain ⟨d, hd, -⟩ := Option.map_eq_some_iff.1 h
  exact (Array.getElem?_eq_some_iff.1 hd).1

@[simp] theorem size_write (i : Ideal) (n : Nat) (half : Half) (a : Payload Nat) :
    (i.write n half a).cells.size = i.cells.size := Array.size_modify

theorem slot?_write (i : Ideal) (n : Nat) (half : Half) (a : Payload Nat) (m : Nat) (half' : Half) :
    (i.write n half a).slot? m half' =
      if m = n ∧ half' = half ∧ n < i.cells.size then some a else i.slot? m half' := by
  rw [slot?, write, slot?, Array.getElem?_modify]
  by_cases hm : n = m
  · subst hm
    by_cases hn : n < i.cells.size
    · by_cases hh : half' = half <;> simp [hn, hh]
    · simp [hn]
  · rw [if_neg hm, if_neg fun h => hm h.1.symm]

theorem slot?_write_self (hn : n < i.cells.size) (half : Half) (a : Payload Nat) :
    (i.write n half a).slot? n half = some a := by
  rw [slot?_write, if_pos ⟨rfl, rfl, hn⟩]

theorem slot?_write_of_ne (hm : m ≠ n) (half half' : Half) (a : Payload Nat) :
    (i.write n half a).slot? m half' = i.slot? m half' := by
  rw [slot?_write, if_neg fun h => hm h.1]

theorem slot?_write_of_half (hh : half' ≠ half) (n m : Nat) (a : Payload Nat) :
    (i.write n half a).slot? m half' = i.slot? m half' := by
  rw [slot?_write, if_neg fun h => hh h.2.1]

@[simp] theorem size_grow (i : Ideal) (count : Nat) :
    (i.grow count).cells.size = i.cells.size + count := by
  simp [grow]

theorem slot?_grow_of_lt (hn : n < i.cells.size) (count : Nat) (half : Half) :
    (i.grow count).slot? n half = i.slot? n half := by
  rw [slot?, grow, Array.getElem?_append_left hn, slot?]

/-- New cells are blank. -/
theorem slot?_grow_of_le {count : Nat} (hle : i.cells.size ≤ n) (hlt : n < i.cells.size + count)
    (half : Half) : (i.grow count).slot? n half = some (.datum ⟨.empty, rfl⟩) := by
  rw [slot?, grow, Array.getElem?_append_right hle, Array.getElem?_replicate, if_pos (by omega)]
  rfl

/-! ## More cells -/

/-- There are more cells, and those that were there are the same. -/
structure Extends (i i' : Ideal) : Prop where
  size_le : i.cells.size ≤ i'.cells.size
  slot? : ∀ n half, n < i.cells.size → i'.slot? n half = i.slot? n half

theorem Extends.of_cells (h : i'.cells = i.cells) : i.Extends i' where
  size_le := by rw [h]
  slot? n half _ := by rw [Ideal.slot?, h, Ideal.slot?]

theorem Extends.trans (h : i.Extends i') (h' : i'.Extends i'') : i.Extends i'' where
  size_le := h.size_le.trans h'.size_le
  slot? n half hn := (h'.slot? n half (hn.trans_le h.size_le)).trans (h.slot? n half hn)

theorem Extends.eq_some (h : i.Extends i') (hs : i.slot? n half = some a) :
    i'.slot? n half = some a :=
  (h.slot? n half (lt_size_of_slot? hs)).trans hs

theorem extends_grow (i : Ideal) (count : Nat) : i.Extends (i.grow count) where
  size_le := by rw [size_grow]; exact Nat.le_add_right _ _
  slot? _ half hn := slot?_grow_of_lt hn count half

/-- Writing new cells. -/
theorem Extends.write (h : i.Extends i') (hn : i.cells.size ≤ n) (half : Half) (a : Payload Nat) :
    i.Extends (i'.write n half a) where
  size_le := by rw [size_write]; exact h.size_le
  slot? m half' hm := by
    rw [slot?_write_of_ne (by omega), h.slot? m half' hm]

/-! ## Lists -/

/-- The cells from one on, each of which refers to the next by its cdr, the last to none. -/
def Leads (i : Ideal) : Option Nat → List Nat → Prop
  | start, [] => start = none
  | start, n :: ns => start = some n ∧ n < i.cells.size ∧ i.Leads (i.next? n .cdr) ns

variable {start : Option Nat} {ns ms : List Nat}

theorem Leads.lt_size (h : i.Leads start ns) (hn : n ∈ ns) : n < i.cells.size := by
  induction ns generalizing start with
  | nil => cases hn
  | cons m ns ih =>
    obtain ⟨-, hlt, hrest⟩ := h
    rcases List.mem_cons.1 hn with rfl | hn
    · exact hlt
    · exact ih hrest hn

/-- A list depends on the cdrs of its cells only. -/
theorem Leads.congr (h : i.Leads start ns) (hsize : i.cells.size ≤ i'.cells.size)
    (hcdr : ∀ n ∈ ns, i'.slot? n .cdr = i.slot? n .cdr) : i'.Leads start ns := by
  induction ns generalizing start with
  | nil => exact h
  | cons n ns ih =>
    obtain ⟨rfl, hlt, hrest⟩ := h
    refine ⟨rfl, hlt.trans_le hsize, ?_⟩
    rw [next?_eq, hcdr n List.mem_cons_self, ← next?_eq]
    exact ih hrest fun m hm => hcdr m (List.mem_cons_of_mem _ hm)

theorem Leads.extend (h : i.Leads start ns) (he : i.Extends i') : i'.Leads start ns :=
  h.congr he.size_le fun n hn => he.slot? n .cdr (h.lt_size hn)

/-! ## Linking -/

/-- What no write to a cdr changes, linking does not change either. -/
theorem congr_link {α : Type} {f : Ideal → α} (hf : ∀ i n m, f (write i n .cdr (.ref m)) = f i)
    (i : Ideal) (ns : List Nat) : f (i.link ns) = f i := by
  fun_induction Ideal.link i ns with
  | case1 i n m rest ih => rw [ih, hf]
  | case2 => rfl

@[simp] theorem size_link (i : Ideal) (ns : List Nat) : (i.link ns).cells.size = i.cells.size :=
  congr_link (f := fun i => i.cells.size) (fun i n m => size_write i n .cdr (.ref m)) i ns

@[simp] theorem roots_link (i : Ideal) (ns : List Nat) : (i.link ns).roots = i.roots :=
  congr_link (f := fun i => i.roots) (fun _ _ _ => rfl) i ns

@[simp] theorem next_link (i : Ideal) (ns : List Nat) : (i.link ns).next = i.next :=
  congr_link (f := fun i => i.next) (fun _ _ _ => rfl) i ns

theorem slot?_link_of_not_mem (hn : n ∉ ns) (half : Half) :
    (i.link ns).slot? n half = i.slot? n half := by
  fun_induction Ideal.link i ns with
  | case1 i m k rest ih =>
    have hne : n ≠ m := fun h => hn (h ▸ List.mem_cons_self)
    rw [ih fun h => hn (List.mem_cons_of_mem _ h), slot?_write_of_ne hne]
  | case2 => rfl

/-- Linking cells without references makes a list of them. -/
theorem leads_link {ns : List Nat} (hnodup : ns.Nodup)
    (hblank : ∀ n ∈ ns, ∃ d, i.slot? n .cdr = some (.datum d)) :
    (i.link ns).Leads ns.head? ns := by
  fun_induction Ideal.link i ns with
  | case1 i n m rest ih =>
    obtain ⟨hn, hrest⟩ := List.nodup_cons.1 hnodup
    have hlt : n < i.cells.size := by
      obtain ⟨d, hd⟩ := hblank n List.mem_cons_self
      exact lt_size_of_slot? hd
    have hblank' : ∀ k ∈ m :: rest, ∃ d, (i.write n .cdr (.ref m)).slot? k .cdr = some (.datum d) := by
      intro k hk
      obtain ⟨d, hd⟩ := hblank k (List.mem_cons_of_mem _ hk)
      have hne : k ≠ n := fun h => hn (h ▸ hk)
      exact ⟨d, by rw [slot?_write_of_ne hne, hd]⟩
    have hcdr : ((i.write n .cdr (.ref m)).link (m :: rest)).slot? n .cdr = some (.ref m) := by
      rw [slot?_link_of_not_mem hn, slot?_write_self hlt]
    refine ⟨rfl, lt_size_of_slot? hcdr, ?_⟩
    rw [next?_of_ref hcdr]
    exact ih hrest hblank'
  | case2 ns i hns =>
    match ns, hns with
    | [], _ => rfl
    | [n], _ =>
      obtain ⟨d, hd⟩ := hblank n (List.mem_singleton_self n)
      exact ⟨rfl, lt_size_of_slot? hd, next?_of_datum hd⟩
    | n :: m :: rest, hns => exact absurd rfl (hns n m rest)

end Ideal

/-! ## Walks -/

namespace Heap

variable {h : Heap} {p q : Address}

theorem contains_cases (hp : h.contains p) : (p.isOld ∧ p.position < h.old.size) ∨
    (¬ p.isOld ∧ p.space = h.side.space ∧ p.position < h.active.size) := by
  obtain ⟨c, hc⟩ := contains_iff.1 hp
  by_cases hold : p.isOld
  · rw [get?_eq_cellAt _ hold, Compaction.cellAt, if_pos hold] at hc
    exact Or.inl ⟨hold, (Array.getElem?_eq_some_iff.1 hc).1⟩
  · have hspace : p.space = h.side.space := by
      by_contra hne
      rw [get?_of_elsewhere _ hold hne] at hc
      cases hc
    exact Or.inr ⟨hold, hspace, position_lt_of_get? hc hspace⟩

/-- Old cells have the same space, and so have the young ones. -/
theorem eq_of_position_eq (hp : h.contains p) (hq : h.contains q) (hkind : p.isOld ↔ q.isOld)
    (hposition : p.position = q.position) : p = q := by
  refine Address.ext_position ?_ hposition
  rcases contains_cases hp with ⟨hold, -⟩ | ⟨hyoung, hspace, -⟩
  · exact (Address.isOld_iff.1 hold).trans (Address.isOld_iff.1 (hkind.1 hold)).symm
  · rcases contains_cases hq with ⟨hold, -⟩ | ⟨-, hspace', -⟩
    · exact absurd (hkind.2 hold) hyoung
    · exact hspace.trans hspace'.symm

/-- Different addresses of cells are no more than there are places for young and for old ones. -/
theorem length_le_of_places {ps : List Address} (hnodup : ps.Nodup) (hps : ∀ p ∈ ps, h.contains p)
    {young old : Nat} (hyoung : ∀ p ∈ ps, ¬ p.isOld → p.position < young)
    (hold : ∀ p ∈ ps, p.isOld → p.position < old) : ps.length ≤ young + old := by
  -- the old cells are counted after the young ones
  let rank : Address → Nat := fun p => if p.isOld then young + p.position else p.position
  have hinj : ∀ p ∈ ps, ∀ q ∈ ps, rank p = rank q → p = q := by
    intro p hp q hq hrank
    have hyp := hyoung p hp
    have hyq := hyoung q hq
    by_cases hop : p.isOld <;> by_cases hoq : q.isOld <;>
      simp only [rank, hop, hoq, if_true, Bool.false_eq_true, if_false] at hrank
    · exact eq_of_position_eq (hps p hp) (hps q hq) (iff_of_true hop hoq) (Nat.add_left_cancel hrank)
    · exact absurd (hyq hoq) (by omega)
    · exact absurd (hyp hop) (by omega)
    · exact eq_of_position_eq (hps p hp) (hps q hq) (iff_of_false hop hoq) hrank
  have hranks : (ps.map rank).Nodup := (List.nodup_map_iff_inj_on hnodup).2 hinj
  have hsub : ps.map rank ⊆ List.range (young + old) := by
    intro k hk
    obtain ⟨p, hp, rfl⟩ := List.mem_map.1 hk
    refine List.mem_range.2 ?_
    by_cases hop : p.isOld
    · simpa [rank, hop] using hold p hp hop
    · simpa [rank, hop] using Nat.lt_add_right old (hyoung p hp hop)
  simpa using (hranks.subperm hsub).length_le

theorem length_le_cellCount {ps : List Address} (hnodup : ps.Nodup) (hps : ∀ p ∈ ps, h.contains p) :
    ps.length ≤ h.cellCount := by
  refine length_le_of_places hnodup hps (fun p hp hyoung => ?_) fun p hp hold => ?_
  · rcases contains_cases (hps p hp) with ⟨hold, -⟩ | ⟨-, -, hlt⟩
    · exact absurd hold hyoung
    · exact hlt
  · rcases contains_cases (hps p hp) with ⟨-, hlt⟩ | ⟨hyoung, -⟩
    · exact hlt
    · exact absurd hold hyoung

/-- However many cells there are, there are no more addresses. -/
theorem length_le_limit {ps : List Address} (hnodup : ps.Nodup) (hps : ∀ p ∈ ps, h.contains p) :
    ps.length ≤ Address.limit + Address.limit :=
  length_le_of_places hnodup hps (fun p _ _ => p.position_lt) fun p _ _ => p.position_lt

end Heap

theorem Trail.walk {h : Heap} {ps : List Address} {p : Address} (ht : Trail h.next? (some p) ps)
    (hps : ∀ q ∈ ps, h.contains q) {limit : Nat} (hlimit : ps.length ≤ limit) : h.walk limit p = ps := by
  induction ps generalizing p limit with
  | nil => cases (show some p = none from ht)
  | cons q ps ih =>
    obtain ⟨hq, hrest⟩ := ht
    cases hq
    rw [List.length_cons] at hlimit
    obtain ⟨limit, rfl⟩ := Nat.exists_eq_succ_of_ne_zero (show limit ≠ 0 by omega)
    rw [Heap.walk, if_pos (hps q List.mem_cons_self)]
    cases hnext : h.next? q with
    | none =>
      rw [hnext] at hrest
      cases ps with
      | nil => rfl
      | cons r ps => cases hrest.1
    | some r =>
      rw [hnext] at hrest
      have hrest' := ih hrest (fun q' hq' => hps q' (List.mem_cons_of_mem _ hq'))
        (show _ ≤ limit by omega)
      exact congrArg (q :: ·) hrest'

/-- **A trail of cells** that ends is walked to its end. -/
theorem Trail.walkAll {h : Heap} {ps : List Address} {p : Address} (ht : Trail h.next? (some p) ps)
    (hps : ∀ q ∈ ps, h.contains q) : h.walkAll p = some ps := by
  have hle := Heap.length_le_cellCount ht.nodup hps
  rw [Heap.walkAll, ht.walk hps (hle.trans (Nat.le_succ _)), if_pos hle]

namespace Mirrors

variable {R : Address → Nat → Prop} {h : Heap} {i : Ideal} {p : Address} {n : Nat} {c : Cell}

theorem slot (hm : Mirrors R h i) (hpn : R p n) (hc : h.get? p = some c) {half : Half}
    {a : Payload Nat} (ha : i.slot? n half = some a) : (c.slot half).payload.Agrees R a := by
  obtain ⟨c', d, hc', hd, hagree⟩ := hm.cell hpn
  rw [hc] at hc'
  cases hc'
  rw [Ideal.slot?, hd] at ha
  cases ha
  exact hagree half

theorem slot_of_datum (hm : Mirrors R h i) (hpn : R p n) (hc : h.get? p = some c) {half : Half}
    {d : Datum} (ha : i.slot? n half = some (.datum d)) : c.slot half = d.slot := by
  have hagree := hm.slot hpn hc ha
  cases hs : (c.slot half).ref? with
  | some q =>
    rw [Slot.payload_of_ref? hs] at hagree
    cases hagree
  | none =>
    rw [Slot.payload_of_ref?_eq_none hs] at hagree
    cases hagree
    rfl

theorem slot_of_ref (hm : Mirrors R h i) (hpn : R p n) (hc : h.get? p = some c) (half : Half) {m : Nat}
    (ha : i.slot? n half = some (.ref m)) : ∃ q, c.slot half = .ref q ∧ R q m := by
  have hagree := hm.slot hpn hc ha
  cases hs : (c.slot half).ref? with
  | some q =>
    rw [Slot.payload_of_ref? hs] at hagree
    cases hagree with
    | ref hqm =>
      refine ⟨q, ?_, hqm⟩
      cases hslot : c.slot half <;> rw [hslot] at hs <;> cases hs
      rfl
  | none =>
    rw [Slot.payload_of_ref?_eq_none hs] at hagree
    cases hagree

/-- A list of the ideal heap is one in the heap. -/
theorem exists_trail (hm : Mirrors R h i) {start : Option Address} {start' : Option Nat}
    {ns : List Nat} (hstart : Option.Rel R start start') (hns : i.Leads start' ns) :
    ∃ ps, Trail h.next? start ps ∧ List.Forall₂ R ps ns := by
  induction ns generalizing start start' with
  | nil =>
    obtain rfl : start' = none := hns
    cases hstart
    exact ⟨[], rfl, .nil⟩
  | cons n ns ih =>
    obtain ⟨rfl, -, hrest⟩ := hns
    cases hstart with
    | @some p _ hpn =>
      obtain ⟨ps, htrail, hps⟩ := ih (hm.next? hpn .cdr) hrest
      exact ⟨p :: ps, ⟨rfl, htrail⟩, .cons hpn hps⟩

/-- **A list of the ideal heap** is walked to its end. -/
theorem walkAll (hm : Mirrors R h i) {ns : List Nat} (hpn : R p n) (hns : i.Leads (some n) ns) :
    ∃ ps, h.walkAll p = some ps ∧ List.Forall₂ R ps ns := by
  obtain ⟨ps, htrail, hps⟩ := hm.exists_trail (.some hpn) hns
  refine ⟨ps, htrail.walkAll fun q hq => ?_, hps⟩
  obtain ⟨k, hk, rfl⟩ := List.getElem_of_mem hq
  exact hm.contains (hps.get hk (hps.length_eq ▸ hk))

end Mirrors

end Tenure
