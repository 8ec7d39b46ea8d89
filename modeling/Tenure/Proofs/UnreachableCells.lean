/-
  Tenure — cells that cannot be reached.

  * `Heap.RootedClean`: what the roots reach is there and carries no marks; `Transports.rootedClean`:
    this is kept by requests for blocks.
  * `Heap.Avoids`: no address has been added to a root or to a cell that leads to some cell.
  * `Avoids.not_rooted`: such a cell is no more reachable than it was.
-/
import Tenure.Proofs.RootedCells

namespace Tenure

namespace Heap

variable {h h' : Heap} {p q r : Address} {start : List Address} {W : Set Address}

/-! ## Heaps in which nothing is wrong -/

/-- What the roots reach is there, and carries no marks. -/
structure RootedClean (h : Heap) : Prop where
  noDangling : h.NoDangling
  unmarked : ∀ p, h.Rooted p → ¬ h.Marks p

theorem RootedClean.cell (hn : h.RootedClean) (hp : h.Rooted p) :
    ∃ c, h.get? p = some c ∧ c.isMarked = false ∧ ∀ q ∈ c.references, h.Rooted q := by
  have hcontains : h.contains p := by
    cases hp with
    | start _ hc => exact hc
    | step _ _ hc => exact hc
  obtain ⟨c, hc⟩ := contains_iff.1 hcontains
  refine ⟨c, hc, ?_, fun q hq => hn.noDangling.rooted_step hp ⟨c, hc, hq⟩⟩
  exact Bool.eq_false_iff.2 fun hm => hn.unmarked p hp ⟨c, hc, hm⟩

/-- Without marks in the way a mark phase finds all that the roots reach. -/
theorem RootedClean.finds (hn : h.RootedClean) (hp : h.Rooted p) : h.Finds h.roots.addresses p := by
  induction hp with
  | @start p hp hc =>
    obtain ⟨c, hc, hm, -⟩ := hn.cell (.start hp hc)
    exact .start hp hc hm
  | @step p q hp hr hc ih =>
    obtain ⟨c, hc, hm, -⟩ := hn.cell (.step hp hr hc)
    exact .step ih hr hc hm

/-- A set of unmarked cells that holds what the roots hold, and what its own cells hold. -/
theorem rootedClean_of_closed (hroots : ∀ p ∈ h.roots.addresses, p ∈ W)
    (hcells : ∀ p ∈ W, ∃ c, h.get? p = some c ∧ c.isMarked = false ∧
      ∀ q ∈ c.references, q ∈ W) : h.RootedClean ∧ ∀ p, h.Rooted p → p ∈ W := by
  have hcontains : ∀ p ∈ W, h.contains p := fun p hp => by
    obtain ⟨c, hc, -⟩ := hcells p hp
    exact contains_iff.2 ⟨c, hc⟩
  have hstep : ∀ p q, p ∈ W → h.RefersTo p q → q ∈ W := by
    rintro p q hp ⟨c, hc, hq⟩
    obtain ⟨d, hd, -, hall⟩ := hcells p hp
    obtain rfl : c = d := Option.some.inj (hc.symm.trans hd)
    exact hall q hq
  have hrooted : ∀ p, h.Rooted p → p ∈ W := by
    intro p hp
    induction hp with
    | start hs _ => exact hroots _ hs
    | step _ hr _ ih => exact hstep _ _ ih hr
  refine ⟨⟨⟨fun p hp => hcontains p (hroots p hp), fun p q hp hq => ?_⟩, ?_⟩, hrooted⟩
  · exact hcontains q (hstep p q (hrooted p hp) hq)
  · rintro p hp ⟨c, hc, hm⟩
    obtain ⟨d, hd, hunmarked, -⟩ := hcells p (hrooted p hp)
    obtain rfl : c = d := Option.some.inj (hc.symm.trans hd)
    rw [hunmarked] at hm
    cases hm

/-! ## Cells that nobody links -/

theorem Reaches.of_refersTo (hpq : h.RefersTo p q) (hq : h.Reaches [q] r) : h.Reaches [p] r := by
  have hp : h.Reaches [p] p := by
    obtain ⟨c, hc, -⟩ := hpq
    exact .start (List.mem_singleton_self p) (contains_iff.2 ⟨c, hc⟩)
  induction hq with
  | start hs hc =>
    obtain rfl := List.mem_singleton.1 hs
    exact .step hp hpq hc
  | step _ hr hc ih => exact .step ih hr hc

theorem Reaches.mono {start' : List Address} (hsub : start ⊆ start') (hp : h.Reaches start p) :
    h.Reaches start' p := by
  induction hp with
  | start hs hc => exact .start (hsub hs) hc
  | step _ hr hc ih => exact .step ih hr hc

/-- No address has been added to a root or to a cell that leads to `p`. -/
structure Avoids (h : Heap) (p : Address) (h' : Heap) : Prop where
  roots : ∀ q ∈ h'.roots.addresses, q ∈ h.roots.addresses ∨ ¬ h.Reaches [q] p
  cells : ∀ q r, h'.RefersTo q r → h.RefersTo q r ∨ ¬ h.Reaches [r] p

/-- What leads to the cell now has led to it before. -/
theorem Avoids.reaches (ha : h.Avoids p h') (hp : h.contains p) (hreaches : h'.Reaches start p) :
    ∃ q ∈ start, h.Reaches [q] p := by
  -- along the path back from the cell, every cell led to it before
  have hback : ∀ q, h'.Reaches start q → h.Reaches [q] p → ∃ q ∈ start, h.Reaches [q] p := by
    intro q hq
    induction hq with
    | start hs _ => exact fun hold => ⟨_, hs, hold⟩
    | step _ hr _ ih =>
      intro hold
      rcases ha.cells _ _ hr with hr | hnone
      · exact ih (.of_refersTo hr hold)
      · exact absurd hold hnone
  exact hback p hreaches (.start (List.mem_singleton_self p) hp)

/-- **A cell that cannot be reached** cannot be reached as long as nobody roots or links it. -/
theorem Avoids.not_rooted (ha : h.Avoids p h') (hp : h.contains p) (hout : ¬ h.Rooted p) :
    ¬ h'.Rooted p := by
  intro hrooted
  obtain ⟨q, hq, hreaches⟩ := ha.reaches hp hrooted
  rcases ha.roots q hq with hold | hnone
  · exact hout (hreaches.mono (List.cons_subset.2 ⟨hold, List.nil_subset _⟩))
  · exact hnone hreaches

end Heap

namespace Store

variable {s s' : Store} {f : Address → Address}

/-- **What the roots reach** remains in order when cells move, and nothing else comes to be reached. -/
theorem Transports.rootedClean (hf : s.Transports f s') (hn : s.heap.purged.RootedClean) :
    s'.heap.purged.RootedClean ∧
    ∀ q, s'.heap.purged.Rooted q → ∃ p, s.heap.purged.Rooted p ∧ f p = q := by
  refine Heap.rootedClean_of_closed (W := {q | ∃ p, s.heap.purged.Rooted p ∧ f p = q})
    (fun q hq => ?_) ?_
  · obtain ⟨p, hp, rfl⟩ := hf.origin q hq
    exact ⟨p, hn.noDangling.rooted_root hp, rfl⟩
  · rintro _ ⟨p, hp, rfl⟩
    obtain ⟨c, hc, hm, hrefers⟩ := hn.cell hp
    obtain ⟨d, hd, hsame, hdc⟩ := hf.cells p (Or.inr (hn.finds hp)) c hc
    refine ⟨d, hd, Heap.Transports.unmarked hm hdc, fun r hr => ?_⟩
    rw [hsame.references] at hr
    obtain ⟨q, hq, rfl⟩ := List.mem_map.1 hr
    exact ⟨q, hrefers q hq, rfl⟩

end Store

end Tenure
