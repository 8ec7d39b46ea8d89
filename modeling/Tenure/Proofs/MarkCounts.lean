/-
  Tenure — what a mark phase comes to, cell by cell and in numbers.

  * `counts_trace_eq`: a mark phase counts each cell that it finds once, in its generation,
    however often the address is met.
  * `get?_mark`: a cell is the same afterwards but for the mark of those that the roots reach.
  * `mark_exact`: both together for a store, with everything that stays as it is.
-/
import Mathlib.Data.List.Permutation
import Mathlib.Data.Set.Card
import Tenure.Proofs.MarkPhase
import Tenure.Proofs.Collection

namespace Tenure

/-- With its mark taken back a marked cell is again what it was. -/
theorem Cell.eq_mark_of_unmark {c d : Cell} (hd : d.isMarked = true) (hunmark : d.unmark = c) :
    d = c.mark := by
  subst hunmark
  rcases d with ⟨_, _, ⟨_, _, _, _⟩⟩
  simp_all [mark, unmark, isMarked]

namespace ReachedCells

/-- The cells found in one generation. -/
def inOld (s : ReachedCells) (old : Bool) : Nat := if old then s.old else s.young

theorem inOld_count (s : ReachedCells) (p : Address) (old : Bool) :
    (s.count p).inOld old = s.inOld old + if p.isOld = old then 1 else 0 := by
  unfold count
  cases p.isOld <;> cases old <;> rfl

end ReachedCells

/-- One more address among those of a generation. -/
theorem ncard_or_eq {F : Address → Prop} {p : Address} (hfin : {q | F q}.Finite) (hp : ¬ F p)
    (old : Bool) : Set.ncard {q | (q = p ∨ F q) ∧ q.isOld = old} =
      (if p.isOld = old then 1 else 0) + Set.ncard {q | F q ∧ q.isOld = old} := by
  have hfin' : {q | F q ∧ q.isOld = old}.Finite := hfin.subset fun _ hq => hq.1
  split
  · rename_i hold
    have hset : {q | (q = p ∨ F q) ∧ q.isOld = old} = insert p {q | F q ∧ q.isOld = old} := by
      ext q
      simp only [Set.mem_ofPred_eq, Set.mem_insert_iff, or_and_right]
      exact or_congr_left ⟨fun h => h.1, fun h => ⟨h, h ▸ hold⟩⟩
    rw [hset, Set.ncard_insert_of_notMem (fun h => hp h.1) hfin', Nat.add_comm]
  · rename_i hold
    have hset : {q | (q = p ∨ F q) ∧ q.isOld = old} = {q | F q ∧ q.isOld = old} := by
      ext q
      refine and_congr_left fun hq => or_iff_right ?_
      rintro rfl
      exact hold hq
    rw [hset, Nat.zero_add]

namespace Heap

variable {h : Heap} {p : Address} {c : Cell}

/-- **What a mark phase counts** are the cells that it finds.  An address may stand in the queue many
    times: after the first the cell is marked, and is not among those that are still to be found. -/
theorem counts_trace_eq (queue : List Address) (m : Marking) :
    {p | m.heap.Finds queue p}.Finite ∧
      ∀ old, (trace queue m).summary.inOld old =
        m.summary.inOld old + Set.ncard {p | m.heap.Finds queue p ∧ p.isOld = old} := by
  fun_induction trace queue m with
  | case1 m =>
    have hnone : {p | m.heap.Finds [] p} = ∅ := Set.eq_empty_of_forall_notMem fun _ => not_finds_nil
    refine ⟨hnone ▸ Set.finite_empty, fun old => ?_⟩
    have hempty : {p | m.heap.Finds [] p ∧ p.isOld = old} = ∅ :=
      Set.eq_empty_of_forall_notMem fun _ hp => not_finds_nil hp.1
    rw [hempty, Set.ncard_empty, Nat.add_zero]
  | case2 m p rest hc ih =>
    simpa only [finds_cons_of_blocked fun c hc' => by rw [hc] at hc'; cases hc'] using ih
  | case3 m p rest c hc hm ih =>
    simpa only [finds_cons_of_blocked fun c' hc' => by rw [hc] at hc'; cases hc'; exact hm] using ih
  | case4 m p rest c hc hm ih =>
    obtain ⟨hfin, hcount⟩ := ih
    have hnew : ¬ (m.heap.put p c.mark).Finds (rest ++ c.references) p :=
      not_finds_of_marks ((marks_put_mark hc).2 (Or.inl rfl))
    simp only [← finds_cons_iff hc (by simpa using hm)]
    refine ⟨?_, fun old => ?_⟩
    · exact (hfin.insert p).subset fun _ hq => hq
    · rw [hcount, ncard_or_eq hfin hnew, ReachedCells.inOld_count, Nat.add_assoc]

/-- The cells that a mark phase counts on a heap without marks. -/
theorem Clean.counts_mark (hclean : h.Clean) :
    h.mark.summary.young = Set.ncard {p | h.Rooted p ∧ ¬ p.isOld} ∧
      h.mark.summary.old = Set.ncard {p | h.Rooted p ∧ p.isOld} := by
  have hcount := (counts_trace_eq h.roots.addresses { heap := h }).2
  have hrooted : ∀ p, h.Finds h.roots.addresses p ↔ h.Rooted p := fun p => hclean.finds_iff
  simp only [hrooted] at hcount
  constructor
  · simpa [ReachedCells.inOld, mark] using hcount false
  · simpa [ReachedCells.inOld, mark] using hcount true

/-- **What a mark phase does to a cell** on a heap without marks. -/
theorem Clean.get?_mark (hclean : h.Clean) (p : Address) :
    (h.Rooted p ∧ h.mark.heap.get? p = (h.get? p).map (·.mark)) ∨
      (¬ h.Rooted p ∧ h.mark.heap.get? p = h.get? p) := by
  have hmarks := hclean.marks_mark_iff (p := p)
  have hunmark : (h.mark.heap.get? p).map (·.unmark) = h.get? p := by
    rw [← get?_clearMarks, clearMarks_mark, hclean.clearMarks]
  cases hd : h.mark.heap.get? p with
  | none =>
    rw [hd] at hunmark
    rw [← hmarks, Marks, hd, ← hunmark]
    refine Or.inr ⟨?_, rfl⟩
    rintro ⟨_, hc, -⟩
    cases hc
  | some d =>
    rw [hd] at hunmark
    rw [← hmarks, Marks, hd, ← hunmark]
    cases hm : d.isMarked with
    | true => exact Or.inl ⟨⟨d, rfl, hm⟩, congrArg some (Cell.eq_mark_of_unmark hm rfl)⟩
    | false =>
      refine Or.inr ⟨?_, congrArg some (Cell.unmark_of_not_isMarked hm).symm⟩
      rintro ⟨e, he, hem⟩
      cases he
      rw [hm] at hem
      cases hem

/-- A mark phase touches the two buffers that hold cells, and nothing else. -/
theorem mark_eq (h : Heap) :
    h.mark.heap = { h with active := h.mark.heap.active, old := h.mark.heap.old } := by
  have hback := clearMarks_mark h
  generalize h.mark.heap = h' at hback
  cases h
  cases h'
  simp only [clearMarks, mk.injEq] at hback ⊢
  simp only [hback, and_self]

end Heap

namespace Store

variable {s : Store}

/-- **A mark phase on a heap without marks**, whatever its roots and slots hold: it marks exactly what
    the roots reach, counts that by generation, and leaves everything else as it is.  Taking the
    marks back restores the heap. -/
theorem mark_exact (hclean : s.heap.Clean) :
    (∀ p, s.mark.1.heap.Marks p ↔ s.heap.Rooted p) ∧
      (∀ p, (s.heap.Rooted p ∧ s.mark.1.heap.get? p = (s.heap.get? p).map (·.mark)) ∨
        (¬ s.heap.Rooted p ∧ s.mark.1.heap.get? p = s.heap.get? p)) ∧
      s.mark.2.young = Set.ncard {p | s.heap.Rooted p ∧ ¬ p.isOld} ∧
      s.mark.2.old = Set.ncard {p | s.heap.Rooted p ∧ p.isOld} ∧
      s.mark.1 =
        { s with
          heap := { s.heap with active := s.mark.1.heap.active, old := s.mark.1.heap.old }
          journal := s.mark.1.journal } ∧
      s.mark.1.clearMarks.heap = s.heap := by
  obtain ⟨hheap, hvalues⟩ := logMarking_eq { s with heap := s.heap.mark.heap } s.heap.mark.dangling
    s.heap.mark.summary s.heap.roots.size
  have hheap : s.mark.1.heap = s.heap.mark.heap := hheap
  have hvalues : s.mark.1.values = s.values := hvalues
  obtain ⟨hyoung, hold⟩ := hclean.counts_mark
  refine ⟨fun p => ?_, fun p => ?_, hyoung, hold, ?_, ?_⟩
  · rw [hheap]
    exact hclean.marks_mark_iff
  · rw [hheap]
    exact hclean.get?_mark p
  · rw [hheap, ← s.heap.mark_eq, ← hheap, ← hvalues]
  · show s.mark.1.heap.clearMarks = s.heap
    rw [hheap, Heap.clearMarks_mark, hclean.clearMarks]

/-- A store with cells that lead back to themselves and to each other, a cell that is shared between
    the generations, two roots for one cell, garbage in both generations, and addresses without a
    cell in roots and slots: in the young buffer that stands by, in a young buffer that no heap has,
    and behind the last cell of either buffer. -/
def warren : Store where
  heap :=
    { settings := { youngCapacity := 8, oldCapacity := 8, oldHighWater := 4, promotionThreshold := 2 }
      side := .second
      active := #[.cons (.ref ⟨.young 1, 1⟩) (.ref ⟨.young 1, 0⟩),
        .cons (.ref ⟨.young 1, 0⟩) (.ref ⟨.old, 1⟩), .cons (.int 3) (.ref ⟨.young 1, 0⟩),
        { flags := { survivedOnce := true } }]
      old := #[.cons (.ref ⟨.young 0, 0⟩) .empty, .cons (.ref ⟨.young 1, 3⟩) (.ref ⟨.young 1, 9⟩),
        .cons (.ref ⟨.young 2, 0⟩) (.ref ⟨.old, 7⟩)]
      roots :=
        { entries := [(⟨0⟩, ⟨.young 1, 0⟩), (⟨1⟩, ⟨.young 1, 0⟩), (⟨2⟩, ⟨.old, 2⟩), (⟨3⟩, ⟨.young 0, 0⟩),
            (⟨4⟩, ⟨.young 1, 3⟩)]
          next := 5 } }

theorem mark_exact_warren : warren.heap.Clean ∧
    (∀ p, warren.mark.1.heap.Marks p ↔ warren.heap.Rooted p) ∧
      Set.ncard {p | warren.heap.Rooted p ∧ ¬ p.isOld} = 3 ∧
      Set.ncard {p | warren.heap.Rooted p ∧ p.isOld} = 2 ∧
      warren.mark.1.clearMarks.heap = warren.heap := by
  have hclean : warren.heap.Clean := by
    constructor <;> decide
  have hfound : warren.mark.2 = ⟨3, 2⟩ := by cbv
  obtain ⟨hmarks, -, hyoung, hold, -, hback⟩ := mark_exact hclean
  rw [hfound] at hyoung hold
  exact ⟨hclean, hmarks, hyoung.symm, hold.symm, hback⟩

end Store

end Tenure
