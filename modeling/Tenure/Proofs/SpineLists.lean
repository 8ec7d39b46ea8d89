/-
  Tenure — lists on a spine.

  * `Heap.Leads`: the cells of a list, from an address on to its end, none of them marked.
  * `Heap.Filled`: a list that holds the numbers of an iteration.
  * `Heap.OnSpine`: such lists on a spine.
  * `Filled.transport`, `OnSpine.transport`: they are found again with their cells.
  * `RetainedLists.HasLists`: a chain the walk along which comes to some lists; `HasLists.held`: it is
    held.
-/
import Tenure.Proofs.RootedCells
import Tenure.Proofs.RetainedLists

namespace Tenure

namespace Heap

variable {h h' : Heap} {f : Address → Address} {within : Set Address} {start : Option Address}
  {ps : List Address} {p q : Address} {length iteration position : Nat} {es : List (Address × Nat)}

/-- What is found from the addresses in a cell is found from the cell. -/
theorem Finds.after {sources targets : List Address} (hp : h.Finds sources p)
    (hrefers : ∀ q ∈ targets, h.RefersTo p q) (hq : h.Finds targets q) : h.Finds sources q := by
  induction hq with
  | start hq hc hm => exact .step hp (hrefers _ hq) hc hm
  | step _ hr hc hm ih => exact .step ih hr hc hm

/-! ## Lists -/

/-- The cells of a list, from an address on to its end, none of them marked. -/
def Leads (h : Heap) : Option Address → List Address → Prop
  | start, [] => start = none
  | start, p :: ps =>
    start = some p ∧ ∃ c, h.get? p = some c ∧ c.isMarked = false ∧ h.Leads c.cdr.ref? ps

theorem Leads.trail (hl : h.Leads start ps) : Trail h.next? start ps := by
  induction ps generalizing start with
  | nil => exact hl
  | cons p ps ih =>
    obtain ⟨rfl, c, hc, -, hrest⟩ := hl
    refine ⟨rfl, ?_⟩
    rw [next?, hc]
    exact ih hrest

theorem Leads.contains (hl : h.Leads start ps) : ∀ p ∈ ps, h.contains p := by
  induction ps generalizing start with
  | nil => exact fun _ hp => nomatch hp
  | cons q ps ih =>
    obtain ⟨-, c, hc, -, hrest⟩ := hl
    intro p hp
    rcases List.mem_cons.1 hp with rfl | hp
    · exact contains_iff.2 ⟨c, hc⟩
    · exact ih hrest p hp

theorem Leads.walkAll (hl : h.Leads (some p) ps) : h.walkAll p = some ps :=
  hl.trail.walkAll hl.contains

/-- The cells of a list are found from its first. -/
theorem Leads.finds (hl : h.Leads start ps) : ∀ p ∈ ps, h.Finds start.toList p := by
  induction ps generalizing start with
  | nil => exact fun _ hp => nomatch hp
  | cons q ps ih =>
    obtain ⟨rfl, c, hc, hm, hrest⟩ := hl
    have hq : h.Finds [q] q := .start (List.mem_singleton_self q) hc hm
    intro p hp
    rcases List.mem_cons.1 hp with rfl | hp
    · exact hq
    · exact hq.after (fun r hr => ⟨c, hc, List.mem_append_right _ hr⟩) (ih hrest p hp)

/-- What a cell of a list refers to next is in the list. -/
theorem Leads.ref_mem (hl : h.Leads start ps) (hp : p ∈ ps)
    {c : Cell} (hc : h.get? p = some c) (hq : c.cdr.ref? = some q) : q ∈ ps := by
  induction ps generalizing start with
  | nil => cases hp
  | cons r ps ih =>
    obtain ⟨-, d, hd, -, hrest⟩ := hl
    rcases List.mem_cons.1 hp with rfl | hp
    · obtain rfl : c = d := Option.some.inj (hc.symm.trans hd)
      cases ps with
      | nil => cases hq.symm.trans hrest
      | cons q' ps =>
        cases hq.symm.trans hrest.1
        exact List.mem_cons_of_mem _ List.mem_cons_self
    · exact List.mem_cons_of_mem _ (ih hrest hp)

theorem Leads.transport (hl : h.Leads start ps) (hf : h.Transports within f h')
    (hwithin : ∀ p ∈ ps, p ∈ within) : h'.Leads (start.map f) (ps.map f) := by
  induction ps generalizing start with
  | nil =>
    obtain rfl : start = none := hl
    rfl
  | cons p ps ih =>
    obtain ⟨rfl, c, hc, hm, hrest⟩ := hl
    obtain ⟨d, hd, ⟨-, hcdr⟩, hdc⟩ := hf p (hwithin p List.mem_cons_self) c hc
    refine ⟨rfl, d, hd, Transports.unmarked hm hdc, ?_⟩
    rw [hcdr, Slot.ref?_mapRef]
    exact ih hrest fun q hq => hwithin q (List.mem_cons_of_mem _ hq)

theorem Fills.transport (hn : h.Fills length iteration position ps) (hf : h.Transports within f h')
    (hwithin : ∀ p ∈ ps, p ∈ within) : h'.Fills length iteration position (ps.map f) := by
  induction ps generalizing position with
  | nil => trivial
  | cons p ps ih =>
    obtain ⟨⟨c, x, hc, hx, hcar⟩, hrest⟩ := hn
    obtain ⟨d, hd, ⟨hsame, -⟩, -⟩ := hf p (hwithin p List.mem_cons_self) c hc
    refine ⟨⟨d, x, hd, hx, ?_⟩, ih hrest fun q hq => hwithin q (List.mem_cons_of_mem _ hq)⟩
    rw [hsame, hcar]
    rfl

theorem Fills.exists_int (hn : h.Fills length iteration position ps) (hp : p ∈ ps) :
    ∃ c x, h.get? p = some c ∧ c.car = .int x := by
  induction ps generalizing position with
  | nil => cases hp
  | cons q ps ih =>
    obtain ⟨⟨c, x, hc, -, hx⟩, hrest⟩ := hn
    rcases List.mem_cons.1 hp with rfl | hp
    · exact ⟨c, x, hc, hx⟩
    · exact ih hrest hp

/-- There is an unmarked list at an address that holds the numbers of an iteration. -/
def Filled (h : Heap) (length iteration : Nat) (p : Address) : Prop :=
  ∃ cells, h.Leads (some p) cells ∧ cells.length = length ∧ h.Fills length iteration 0 cells

theorem Filled.holdsList (hl : h.Filled length iteration p) : h.HoldsList length iteration p := by
  obtain ⟨cells, hleads, hlength, hfills⟩ := hl
  exact ⟨cells, hleads.walkAll, hlength, hfills⟩

/-- **A list** is found again with its cells. -/
theorem Filled.transport (hl : h.Filled length iteration p) (hf : h.Transports within f h')
    (hwithin : ∀ q, h.Finds [p] q → q ∈ within) : h'.Filled length iteration (f p) := by
  obtain ⟨cells, hleads, hlength, hfills⟩ := hl
  have hcells : ∀ q ∈ cells, q ∈ within := fun q hq => hwithin q (hleads.finds q hq)
  exact ⟨cells.map f, hleads.transport hf hcells, (List.length_map f).trans hlength,
    hfills.transport hf hcells⟩

/-! ## Lists on a spine -/

/-- A list that is moved, with its iteration. -/
def moved (f : Address → Address) (e : Address × Nat) : Address × Nat := (f e.1, e.2)

/-- From an address on there is a spine of unmarked cells, off which some lists hang. -/
def OnSpine (h : Heap) (length : Nat) : Option Address → List (Address × Nat) → Prop
  | start, [] => start = none
  | start, (q, iteration) :: es =>
    ∃ p c, start = some p ∧ h.get? p = some c ∧ c.isMarked = false ∧ c.car = .ref q ∧
      h.Filled length iteration q ∧ h.OnSpine length c.cdr.ref? es

/-- **Lists on a spine** are found again with their cells. -/
theorem OnSpine.transport (hs : h.OnSpine length start es) (hf : h.Transports within f h')
    (hwithin : ∀ p, h.Finds start.toList p → p ∈ within) :
    h'.OnSpine length (start.map f) (es.map (moved f)) := by
  induction es generalizing start with
  | nil =>
    obtain rfl : start = none := hs
    rfl
  | cons e es ih =>
    obtain ⟨p, c, rfl, hc, hm, hcar, hlist, hrest⟩ := hs
    have hp : h.Finds [p] p := .start (List.mem_singleton_self p) hc hm
    obtain ⟨d, hd, ⟨hcar', hcdr'⟩, hdc⟩ := hf p (hwithin p hp) c hc
    refine ⟨f p, d, rfl, hd, Transports.unmarked hm hdc, by rw [hcar', hcar]; rfl, ?_, ?_⟩
    · have hrefers : ∀ r ∈ [e.1], h.RefersTo p r := by
        intro r hr
        obtain rfl := List.mem_singleton.1 hr
        exact ⟨c, hc, by simp [Cell.references, hcar, Slot.ref?]⟩
      exact hlist.transport hf fun r hr => hwithin r (hp.after hrefers hr)
    · rw [hcdr', Slot.ref?_mapRef]
      refine ih hrest fun r hr => hwithin r (hp.after (fun _ hq => ?_) hr)
      exact ⟨c, hc, List.mem_append_right _ hq⟩

/-- A list hangs off the cell at an address and holds the numbers of its iteration. -/
def Holds (h : Heap) (length : Nat) (spine : Address) (e : Address × Nat) : Prop :=
  ∃ c, h.get? spine = some c ∧ c.car = .ref e.1 ∧ h.HoldsList length e.2 e.1

theorem OnSpine.exists_spines (hs : h.OnSpine length start es) :
    ∃ spines, h.Leads start spines ∧ List.Forall₂ (h.Holds length) spines es := by
  induction es generalizing start with
  | nil => exact ⟨[], hs, .nil⟩
  | cons e es ih =>
    obtain ⟨p, c, rfl, hc, hm, hcar, hlist, hrest⟩ := hs
    obtain ⟨spines, hleads, hspines⟩ := ih hrest
    exact ⟨p :: spines, ⟨rfl, c, hc, hm, hleads⟩, .cons ⟨c, hc, hcar, hlist.holdsList⟩ hspines⟩

end Heap

namespace RetainedLists

variable {chain : RetainedLists} {h : Heap} {length : Nat} {es : List (Address × Nat)}

/-- The walk along the spine of a chain comes to some lists, the newest first. -/
def HasLists (chain : RetainedLists) (h : Heap) (length : Nat) (es : List (Address × Nat)) : Prop :=
  ∃ spines, (chain.head? h).elim (some []) h.walkAll = some spines ∧
    List.Forall₂ (h.Holds length) spines es

theorem hasLists_of_onSpine (hs : h.OnSpine length (chain.head? h) es) : chain.HasLists h length es := by
  obtain ⟨spines, hleads, hspines⟩ := hs.exists_spines
  refine ⟨spines, ?_, hspines⟩
  cases hhead : chain.head? h with
  | none =>
    rw [hhead] at hleads
    cases spines with
    | nil => rfl
    | cons p ps => cases hleads.1
  | some p =>
    rw [hhead] at hleads
    exact hleads.walkAll

/-- **A chain the lists of which are those of its iterations** is held. -/
theorem HasLists.held (hs : chain.HasLists h length es)
    (hes : es.map (·.2) = chain.iterations.toList.reverse) : chain.Held h length := by
  obtain ⟨spines, hwalk, hspines⟩ := hs
  refine ⟨spines, hwalk, ?_⟩
  rw [← hes, List.forall₂_map_right_iff]
  exact hspines.imp fun p e ⟨c, hc, hcar, hlist⟩ => ⟨c, e.1, hc, hcar, hlist⟩

end RetainedLists

end Tenure
