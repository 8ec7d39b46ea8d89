/-
  Tenure — cells that stay where they are.

  Only a collection that succeeds moves cells.  As long as there is none, every cell keeps its address,
  and the cells that a client leaves alone keep what they hold.

  * `Heap.Unmoved`: every cell is where it was, and some of them hold what they held.
  * `Store.tidied_cases`: what making room may do to the cells.
  * `Store.BlockAnswer`: what the answer to a request for a block may have done;
    `exists_blockAnswer_allocate`, `exists_blockAnswer_allocateLinked`: the two requests do no more.
-/
import Tenure.Proofs.OwnerCounts

namespace Tenure

/-- The same slots, and no mark that was not there before. -/
structure Cell.Agrees (c d : Cell) : Prop where
  car : d.car = c.car
  cdr : d.cdr = c.cdr
  marked : d.isMarked → c.isMarked

theorem Cell.Agrees.refl (c : Cell) : c.Agrees c := ⟨rfl, rfl, id⟩

theorem Cell.Agrees.trans {c d e : Cell} (h : c.Agrees d) (h' : d.Agrees e) : c.Agrees e :=
  ⟨h'.car.trans h.car, h'.cdr.trans h.cdr, fun he => h.marked (h'.marked he)⟩

theorem Cell.agrees_unmark (c : Cell) : c.Agrees c.unmark := ⟨rfl, rfl, fun h => nomatch h⟩

namespace Heap

variable {h h' h'' : Heap} {alone : Set Address} {p q : Address} {c d : Cell} {count : Nat}

/-- Every cell is where it was, and those at some addresses hold what they held. -/
def Unmoved (alone : Set Address) (h h' : Heap) : Prop :=
  ∀ p c, h.get? p = some c → ∃ d, h'.get? p = some d ∧ (p ∈ alone → c.Agrees d)

namespace Unmoved

theorem of_get? (hget : ∀ p, h'.get? p = h.get? p) : Unmoved alone h h' := fun p c hc =>
  ⟨c, (hget p).trans hc, fun _ => .refl c⟩

theorem of_unmark (hget : ∀ p, h'.get? p = (h.get? p).map (·.unmark)) : Unmoved alone h h' :=
  fun p c hc => ⟨c.unmark, by rw [hget, hc]; rfl, fun _ => c.agrees_unmark⟩

theorem trans (h₁ : Unmoved alone h h') (h₂ : Unmoved alone h' h'') : Unmoved alone h h'' := by
  intro p c hc
  obtain ⟨d, hd, hcd⟩ := h₁ p c hc
  obtain ⟨e, he, hde⟩ := h₂ p d hd
  exact ⟨e, he, fun hp => (hcd hp).trans (hde hp)⟩

theorem contains (h₁ : Unmoved alone h h') (hp : h.contains p) : h'.contains p := by
  obtain ⟨c, hc⟩ := contains_iff.1 hp
  obtain ⟨d, hd, -⟩ := h₁ p c hc
  exact contains_iff.2 ⟨d, hd⟩

end Unmoved

theorem unmoved_put (hp : p ∉ alone) (d : Cell) : Unmoved alone h (h.put p d) := by
  intro q c hc
  by_cases hq : q = p
  · subst hq
    exact ⟨d, get?_put_self hc d, fun hmem => absurd hmem hp⟩
  · exact ⟨c, (get?_put_of_ne hq d).trans hc, fun _ => .refl c⟩

theorem unmoved_grow (hg : h.grow count = .ok (h', p)) : Unmoved alone h h' := by
  obtain ⟨first, -, hg⟩ := bind_eq_ok_iff.1 hg
  cases hg
  exact fun q c hc => ⟨c, get?_append hc, fun _ => .refl c⟩

/-- The cells of a new block were not there before. -/
theorem not_contains_of_grow (hg : h.grow count = .ok (h', p)) {block : List Address}
    (hb : p.block count = .ok block) (hq : q ∈ block) : ¬ h.contains q := by
  obtain ⟨first, hfirst, hg⟩ := bind_eq_ok_iff.1 hg
  cases hg
  obtain ⟨hspace, hpos⟩ := Address.make_eq_ok_iff.1 hfirst
  obtain ⟨k, hk, rfl⟩ := List.getElem_of_mem hq
  obtain ⟨hqs, hqp⟩ := (Address.getElem?_block hb).2 k _ (List.getElem?_eq_getElem hk)
  have hactive : block[k].space = h.side.space := hqs.trans hspace
  rw [contains, get?_of_active _ hactive, Array.getElem?_eq_none (by omega)]
  exact Bool.false_ne_true

theorem get?_link_of_not_mem {block : List Address} (hq : q ∉ block) :
    (h.link block).get? q = h.get? q := by
  fun_induction Heap.link h block with
  | case1 h p p' rest ih =>
    rw [ih fun hmem => hq (List.mem_cons_of_mem _ hmem), modify]
    have hne : q ≠ p := fun hqp => hq (hqp ▸ List.mem_cons_self)
    split
    · exact get?_put_of_ne hne _
    · rfl
  | case2 h block => rfl

end Heap

/-! ## Requests to a store -/

namespace Store

variable {s s' : Store} {count : Nat} {alone : Set Address}

/-- **Making room** leaves every cell where it is, or moves all that the mark phase finds. -/
theorem tidied_cases (h : s.Tidied s') :
    (s'.heap.counters.youngCollections = s.heap.counters.youngCollections ∧
      ∀ alone, s.heap.Unmoved alone s'.heap) ∨
      (s'.heap.counters.youngCollections = s.heap.counters.youngCollections + 1 ∧
        ∃ f compacting, Heap.Transfers s.heap.purged compacting f s'.heap ∧
          ∃ gone, s'.heap.roots = (s.heap.purged.roots.mapAddresses f).without gone ∧
            ∀ id ∈ gone, s.values.Leases ⟨s.heap.roots.registry, id⟩) := by
  obtain ⟨hheap, -⟩ | ⟨event, a, t, hc, hheap, -⟩ := h
  · exact Or.inl ⟨by rw [hheap], fun alone => .of_get? fun p => by rw [hheap]⟩
  · cases a with
    | ok report =>
      obtain ⟨f, gone, hf, hroots, hgone⟩ := exists_transfers hc
      refine Or.inr ⟨?_, f, report.oldCollected, hheap ▸ hf, gone, ?_, hgone⟩
      · rw [hheap]
        exact youngCollections_collect (s := s.log event) hc
      · rw [hheap]
        exact hroots
    | error error =>
      obtain ⟨-, -, hget⟩ := purgesRoots_of_refused hc
      have hcounters := counters_collect hc
      refine Or.inl ⟨?_, fun alone => .of_unmark fun p => ?_⟩
      · rw [hheap, hcounters]
        rfl
      · rw [hheap]
        exact hget p

/-- An answer to a request for a block: room was made, in `t`, and then nothing was done to the cells
    that were there.  Those of the block were not. -/
structure BlockAnswer (s t : Store) (count : Nat) (a : Except HeapError Address) (s' : Store) : Prop where
  tidied : s.Tidied t
  unmoved : ∀ alone, t.heap.Unmoved alone s'.heap
  roots : s'.heap.roots = t.heap.roots
  counters : s'.heap.counters = t.heap.counters
  values : s'.values = t.values
  new : ∀ p block, a = .ok p → p.block count = .ok block → ∀ q ∈ block, ¬ t.heap.contains q

theorem exists_blockAnswer_allocate {a : Except HeapError Address} (ha : s.allocate count = .ok a s') :
    ∃ t, s.BlockAnswer t count a s' := by
  obtain ⟨t, htidied, ⟨_, rfl, rfl⟩ | ⟨heap, p, rfl, -, -, hg, rfl⟩⟩ := allocate_cases ha
  · exact ⟨_, htidied, fun _ => .of_get? fun _ => rfl, rfl, rfl, rfl, nofun⟩
  · have hnew : ∀ block, p.block count = .ok block → ∀ q ∈ block, ¬ t.heap.contains q :=
      fun block hb q hq => Heap.not_contains_of_grow hg hb hq
    have hunmoved : ∀ alone, t.heap.Unmoved alone heap := fun _ => Heap.unmoved_grow hg
    obtain ⟨first, -, hg⟩ := bind_eq_ok_iff.1 hg
    cases hg
    exact ⟨t, htidied, hunmoved, rfl, rfl, rfl, fun _ block hp => by cases hp; exact hnew block⟩

theorem exists_blockAnswer_allocateLinked {a : Except HeapError Address}
    (ha : s.allocateLinked count = .ok a s') : ∃ t, s.BlockAnswer t count a s' := by
  obtain ⟨a₀, u, ha₀, ⟨_, rfl, rfl, rfl⟩ | ⟨p, block, rfl, rfl, hb, rfl⟩⟩ := allocateLinked_cases ha
  · exact exists_blockAnswer_allocate ha₀
  · obtain ⟨t, ht⟩ := exists_blockAnswer_allocate ha₀
    refine ⟨t, ht.tidied, fun alone q c hc => ?_, ?_, ?_, ht.values, ht.new⟩
    · obtain ⟨d, hd, hcd⟩ := ht.unmoved alone q c hc
      -- the cells that are linked are new
      have hq : q ∉ block := fun hmem =>
        ht.new p block rfl hb q hmem (Heap.contains_iff.2 ⟨c, hc⟩)
      exact ⟨d, (Heap.get?_link_of_not_mem hq).trans hd, hcd⟩
    · exact (Heap.congr_link Heap.roots_put _ _).trans ht.roots
    · exact (Heap.congr_link Heap.counters_put _ _).trans ht.counters

theorem BlockAnswer.unmoved_of_same {t : Store} {a : Except HeapError Address}
    (h : s.BlockAnswer t count a s')
    (hsame : s'.heap.counters.youngCollections = s.heap.counters.youngCollections)
    (alone : Set Address) : s.heap.Unmoved alone s'.heap := by
  rcases tidied_cases h.tidied with ⟨-, hunmoved⟩ | ⟨hmore, -⟩
  · exact (hunmoved alone).trans (h.unmoved alone)
  · rw [h.counters] at hsame
    omega

theorem unmoved_of_givesUp (h : s.GivesUp s') : s.heap.Unmoved alone s'.heap := by
  obtain ⟨gone, hgone, -⟩ := h.heap
  exact .of_get? fun p => by rw [hgone]; rfl

theorem unmoved_collect {a : Except HeapError CollectionSummary} (hc : s.collect = .ok a s')
    (hsame : s'.heap.counters.youngCollections = s.heap.counters.youngCollections) :
    s.heap.Unmoved alone s'.heap := by
  cases a with
  | ok report =>
    have hmore := youngCollections_collect hc
    omega
  | error error =>
    obtain ⟨-, -, hget⟩ := purgesRoots_of_refused hc
    exact .of_unmark hget

end Store

end Tenure
