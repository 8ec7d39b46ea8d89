/-
  Tenure — heaps that hold the same cells at other addresses.

  * `Heap.NoDangling`: the roots, and the cells that they reach, hold addresses of
    cells only.
  * `Heap.MapsOnto`: a map of addresses takes the cells of a heap at certain addresses
    to all the cells of another heap.
  * `Heap.Relocates`: a map of addresses takes what the roots reach in a heap to what
    they reach in another, with the contents.
  * `MapsOnto.relocates`: the first does the second if nothing is missing that the roots
    reach; `MapsOnto.kept_of_relocates`: and only then.
-/
import Tenure.Proofs.CarriedCells
import Tenure.Proofs.MarkPhase
import Tenure.Proofs.ReleasedReferences

namespace Tenure

/-! ## Addresses in cells -/

theorem Slot.ref?_mapRef (f : Address → Address) (s : Slot) : (s.mapRef f).ref? = s.ref?.map f := by
  cases s <;> rfl

theorem Cell.mem_references_iff {c : Cell} {p : Address} :
    p ∈ c.references ↔ ∃ half, (c.slot half).ref? = some p := by
  rw [references, List.mem_append, Option.mem_toList, Option.mem_toList]
  constructor
  · rintro (h | h)
    · exact ⟨.car, h⟩
    · exact ⟨.cdr, h⟩
  · rintro ⟨_ | _, h⟩
    · exact Or.inl h
    · exact Or.inr h

/-- Two cells whose slots are the same but for the addresses, which `f` has changed. -/
def Cell.SameBut (f : Address → Address) (c d : Cell) : Prop :=
  d.car = c.car.mapRef f ∧ d.cdr = c.cdr.mapRef f

theorem Cell.SameBut.references {f : Address → Address} {c d : Cell} (h : c.SameBut f d) :
    d.references = c.references.map f := by
  have key : ∀ s : Slot, (s.mapRef f).ref?.toList = s.ref?.toList.map f := by
    intro s
    cases s <;> rfl
  rw [Cell.references, Cell.references, h.1, h.2, key, key, List.map_append]

namespace Heap

/-- No root, and no cell that the roots reach, holds an address without a cell. -/
structure NoDangling (h : Heap) : Prop where
  root : ∀ p ∈ h.roots.addresses, h.contains p
  cell : ∀ p q, h.Rooted p → h.RefersTo p q → h.contains q

/-- The cells of `h` at the addresses in `kept` are the cells of `h'`, each at the address that `f`
    gives for its own, and so is every address in them. -/
structure MapsOnto (kept : Set Address) (h : Heap) (f : Address → Address) (h' : Heap) : Prop where
  bijOn : Set.BijOn f kept {q | h'.contains q}
  cell : ∀ p ∈ kept, ∃ c d, h.get? p = some c ∧ h'.get? (f p) = some d ∧ c.SameBut f d

/-- What the roots reach in `h` is what they reach in `h'`: every cell is at an address of its own,
    with what it held, and every address in a cell or a root is the one that the cell there has
    now.  Roots may have been taken away. -/
structure Relocates (h : Heap) (f : Address → Address) (h' : Heap) : Prop where
  injective : Set.InjOn f {p | h.Rooted p}
  cell : ∀ p, h.Rooted p → ∃ c d, h.get? p = some c ∧ h'.get? (f p) = some d ∧ c.SameBut f d
  root : ∀ id q, h'.roots.get? id = some q → ∃ p, h.roots.get? id = some p ∧ f p = q
  onto : ∀ q, h'.Rooted q → ∃ p, h.Rooted p ∧ f p = q

/-! ## What the roots reach -/

theorem NoDangling.rooted_root {h : Heap} (hd : h.NoDangling) {p : Address}
    (hp : p ∈ h.roots.addresses) : h.Rooted p :=
  .start hp (hd.root p hp)

theorem NoDangling.rooted_step {h : Heap} (hd : h.NoDangling) {p q : Address} (hp : h.Rooted p)
    (hq : h.RefersTo p q) : h.Rooted q :=
  .step hp hq (hd.cell p q hp hq)

/-- A list of addresses of cells that holds what the roots hold, and what its own cells hold. -/
theorem noDangling_of_closed {h : Heap} (ps : List Address) (hroots : h.roots.addresses ⊆ ps)
    (hcells : ∀ p ∈ ps, (h.get? p).any (fun c => c.references.all (ps.contains ·)) = true) :
    h.NoDangling := by
  have hcell : ∀ {p}, p ∈ ps → ∃ c, h.get? p = some c ∧ ∀ q ∈ c.references, q ∈ ps := by
    intro p hp
    obtain ⟨c, hc, hall⟩ := (Option.any_eq_true _ _).1 (hcells p hp)
    exact ⟨c, hc, by simpa using hall⟩
  have hcontains : ∀ {p}, p ∈ ps → h.contains p := by
    intro p hp
    obtain ⟨c, hc, -⟩ := hcell hp
    exact contains_iff.2 ⟨c, hc⟩
  have hstep : ∀ {p q}, p ∈ ps → h.RefersTo p q → q ∈ ps := by
    rintro p q hp ⟨c, hc, hq⟩
    obtain ⟨c', hc', hmem⟩ := hcell hp
    rw [hc] at hc'
    cases hc'
    exact hmem q hq
  have hrooted : ∀ {p}, h.Rooted p → p ∈ ps := by
    intro p hp
    induction hp with
    | start hs _ => exact hroots hs
    | step _ hr _ ih => exact hstep ih hr
  exact ⟨fun p hp => hcontains (hroots hp), fun p q hp hq => hcontains (hstep (hrooted hp) hq)⟩

namespace MapsOnto

variable {kept : Set Address} {h h' : Heap} {f : Address → Address}

/-- One step along a cell that is still there. -/
theorem refersTo (hr : MapsOnto kept h f h') {p q : Address} (hp : p ∈ kept)
    (hq : h'.RefersTo (f p) q) : ∃ p', h.RefersTo p p' ∧ f p' = q := by
  obtain ⟨c, d, hc, hd, hsame⟩ := hr.cell p hp
  obtain ⟨d', hd', hmem⟩ := hq
  rw [hd] at hd'
  cases hd'
  rw [hsame.references] at hmem
  obtain ⟨p', hp', rfl⟩ := List.mem_map.1 hmem
  exact ⟨p', ⟨c, hc, hp'⟩, rfl⟩

/-- Where nothing was missing that the roots reached, they reach it now. -/
theorem onto (hr : MapsOnto kept h f h') (hd : h.NoDangling) (hk : ∀ p, h.Rooted p → p ∈ kept)
    (hroots : ∀ q ∈ h'.roots.addresses, ∃ p ∈ h.roots.addresses, f p = q) {q : Address}
    (hq : h'.Rooted q) : ∃ p, h.Rooted p ∧ f p = q := by
  induction hq with
  | start hs _ =>
    obtain ⟨p, hp, rfl⟩ := hroots _ hs
    exact ⟨p, hd.rooted_root hp, rfl⟩
  | step _ hstep _ ih =>
    obtain ⟨p, hp, rfl⟩ := ih
    obtain ⟨p', hp', rfl⟩ := hr.refersTo (hk p hp) hstep
    exact ⟨p', hd.rooted_step hp hp', rfl⟩

theorem noDangling (hr : MapsOnto kept h f h') (hd : h.NoDangling) (hk : ∀ p, h.Rooted p → p ∈ kept)
    (hroots : ∀ q ∈ h'.roots.addresses, ∃ p ∈ h.roots.addresses, f p = q) : h'.NoDangling := by
  constructor
  · intro q hq
    obtain ⟨p, hp, rfl⟩ := hroots q hq
    exact hr.bijOn.mapsTo (hk p (hd.rooted_root hp))
  · intro q q' hq hq'
    obtain ⟨p, hp, rfl⟩ := hr.onto hd hk hroots hq
    obtain ⟨p', hp', rfl⟩ := hr.refersTo (hk p hp) hq'
    exact hr.bijOn.mapsTo (hk p' (hd.rooted_step hp hp'))

/-- **Nothing is lost** if all that the roots reach is kept. -/
theorem relocates (hr : MapsOnto kept h f h') (hd : h.NoDangling) (hk : ∀ p, h.Rooted p → p ∈ kept)
    (hroots : ∀ q ∈ h'.roots.addresses, ∃ p ∈ h.roots.addresses, f p = q)
    (hroot : ∀ id q, h'.roots.get? id = some q → ∃ p, h.roots.get? id = some p ∧ f p = q) :
    Relocates h f h' where
  injective := hr.bijOn.injOn.mono hk
  cell p hp := hr.cell p (hk p hp)
  root := hroot
  onto _ hq := hr.onto hd hk hroots hq

/-- What is still there under an address of its own was kept. -/
theorem kept_of_relocates (hr : MapsOnto kept h f h') (hrel : Relocates h f h')
    (hinj : Set.InjOn f ({p | h.Rooted p} ∪ kept)) {p : Address} (hp : h.Rooted p) : p ∈ kept := by
  obtain ⟨c, d, -, hd, -⟩ := hrel.cell p hp
  obtain ⟨k, hk, hfk⟩ := hr.bijOn.surjOn (show f p ∈ {q | h'.contains q} from contains_iff.2 ⟨d, hd⟩)
  rwa [← hinj (Or.inr hk) (Or.inl hp) hfk]

end MapsOnto

end Heap

end Tenure
