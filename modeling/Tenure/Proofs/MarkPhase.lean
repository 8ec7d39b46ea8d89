/-
  Tenure — what a mark phase marks.

  * `Heap.Marks`, `Heap.Clean`: the addresses of marked cells, and heaps without any.
  * `Heap.Finds`: the cells that a mark phase comes to.  Marked cells stop it, so
    these are the cells that can be reached through cells without a mark.
  * `marks_mark_iff`: afterwards a cell is marked if it was before or was found.
  * `clearMarks_mark`: apart from the marks nothing changes.
  * `young_mark`: the young cells that a mark phase counts.
-/
import Tenure.Heap.Mark

namespace Tenure.Heap

/-- An address of a marked cell. -/
def Marks (h : Heap) (p : Address) : Prop := ∃ c, h.get? p = some c ∧ c.isMarked = true

/-- No cell is marked. -/
def Clean (h : Heap) : Prop :=
  (∀ c ∈ h.active, c.isMarked = false) ∧ ∀ c ∈ h.old, c.isMarked = false

/-- The cells that a mark phase finds from some addresses: each is reached through cells that
    carry no mark, and carries none itself. -/
inductive Finds (h : Heap) (start : List Address) : Address → Prop
  | start {p c} : p ∈ start → h.get? p = some c → c.isMarked = false → Finds h start p
  | step {p q c} :
    Finds h start p → h.RefersTo p q → h.get? q = some c → c.isMarked = false → Finds h start q

/-! ## Cells and marks -/

theorem contains_iff {h : Heap} {p : Address} : h.contains p ↔ ∃ c, h.get? p = some c :=
  Option.isSome_iff_exists

theorem get?_mem {h : Heap} {p : Address} {c : Cell} (hc : h.get? p = some c) :
    c ∈ h.active ∨ c ∈ h.old := by
  unfold get? at hc
  split at hc
  · split at hc
    · exact Or.inl (Array.mem_of_getElem? hc)
    · cases hc
  · exact Or.inr (Array.mem_of_getElem? hc)

theorem Clean.isMarked {h : Heap} (hh : h.Clean) {p : Address} {c : Cell} (hc : h.get? p = some c) :
    c.isMarked = false :=
  (get?_mem hc).elim (hh.1 c) (hh.2 c)

theorem Clean.not_marks {h : Heap} (hh : h.Clean) (p : Address) : ¬ h.Marks p := by
  rintro ⟨c, hc, hm⟩
  rw [hh.isMarked hc] at hm
  cases hm

theorem Finds.reaches {h : Heap} {start : List Address} {p : Address} (hp : h.Finds start p) :
    h.Reaches start p := by
  induction hp with
  | start hs hc _ => exact .start hs (contains_iff.2 ⟨_, hc⟩)
  | step _ hr hc _ ih => exact .step ih hr (contains_iff.2 ⟨_, hc⟩)

/-- Without marks a mark phase finds all that can be reached. -/
theorem Clean.finds_iff {h : Heap} (hh : h.Clean) {start : List Address} {p : Address} :
    h.Finds start p ↔ h.Reaches start p := by
  refine ⟨Finds.reaches, ?_⟩
  intro hp
  induction hp with
  | start hs hc =>
    obtain ⟨c, hc⟩ := contains_iff.1 hc
    exact .start hs hc (hh.isMarked hc)
  | step _ hr hc ih =>
    obtain ⟨c, hc⟩ := contains_iff.1 hc
    exact .step ih hr hc (hh.isMarked hc)

/-! ## Marking one cell -/

variable {h : Heap} {p : Address} {c : Cell}

theorem get?_put_self (hc : h.get? p = some c) (d : Cell) : (h.put p d).get? p = some d := by
  rw [get?_put, if_pos ⟨rfl, contains_iff.2 ⟨c, hc⟩⟩]

theorem get?_put_of_ne {q : Address} (hq : q ≠ p) (d : Cell) : (h.put p d).get? q = h.get? q := by
  rw [get?_put, if_neg fun hc => hq hc.1]

theorem marks_put_mark (hc : h.get? p = some c) {q : Address} :
    (h.put p c.mark).Marks q ↔ q = p ∨ h.Marks q := by
  by_cases hq : q = p
  · subst hq
    exact ⟨fun _ => Or.inl rfl, fun _ => ⟨_, get?_put_self hc _, rfl⟩⟩
  · simp only [Marks, get?_put_of_ne hq, hq, false_or]

theorem refersTo_put_mark (hc : h.get? p = some c) {q r : Address} :
    (h.put p c.mark).RefersTo q r ↔ h.RefersTo q r := by
  by_cases hq : q = p
  · subst hq
    simp only [RefersTo, get?_put_self hc, hc, Option.some.injEq, exists_eq_left', Cell.references_mark]
  · simp only [RefersTo, get?_put_of_ne hq]

/-- One step of a mark phase: a cell that is marked passes its addresses on to the queue. -/
theorem finds_cons_iff (hc : h.get? p = some c) (hm : c.isMarked = false) {rest : List Address}
    {q : Address} :
    q = p ∨ (h.put p c.mark).Finds (rest ++ c.references) q ↔ h.Finds (p :: rest) q := by
  constructor
  · rintro (rfl | hq)
    · exact .start List.mem_cons_self hc hm
    · -- an unmarked cell of the changed heap is not `p`, so it is the one that was there
      have back : ∀ {r d}, (h.put p c.mark).get? r = some d → d.isMarked = false →
          h.get? r = some d := by
        intro r d hd hdm
        by_cases hr : r = p
        · subst hr
          rw [get?_put_self hc] at hd
          cases hd
          cases hdm
        · rwa [get?_put_of_ne hr] at hd
      induction hq with
      | start hs hd hdm =>
        rcases List.mem_append.1 hs with hs | hs
        · exact .start (List.mem_cons_of_mem _ hs) (back hd hdm) hdm
        · exact .step (.start List.mem_cons_self hc hm) ⟨c, hc, hs⟩ (back hd hdm) hdm
      | step _ hr hd hdm ih => exact .step ih ((refersTo_put_mark hc).1 hr) (back hd hdm) hdm
  · intro hq
    have forth : ∀ {r d}, r ≠ p → h.get? r = some d → (h.put p c.mark).get? r = some d :=
      fun hr hd => by rwa [get?_put_of_ne hr]
    induction hq with
    | @start r d hs hd hdm =>
      by_cases hr : r = p
      · exact Or.inl hr
      · have hs := (List.mem_cons.1 hs).resolve_left hr
        exact Or.inr (.start (List.mem_append_left _ hs) (forth hr hd) hdm)
    | @step r q d _ hrq hd hdm ih =>
      by_cases hq : q = p
      · exact Or.inl hq
      · rcases ih with rfl | ih
        · obtain ⟨c', hc', hq'⟩ := hrq
          rw [hc] at hc'
          cases hc'
          exact Or.inr (.start (List.mem_append_right _ hq') (forth hq hd) hdm)
        · exact Or.inr (.step ih ((refersTo_put_mark hc).2 hrq) (forth hq hd) hdm)

theorem not_finds_nil {q : Address} : ¬ h.Finds [] q := by
  intro hq
  induction hq with
  | start hs => cases hs
  | step _ _ _ _ ih => exact ih

/-- A marked cell is not found again. -/
theorem not_finds_of_marks {start : List Address} {q : Address} (hq : h.Marks q) :
    ¬ h.Finds start q := by
  obtain ⟨d, hd, hm⟩ := hq
  rintro (⟨-, hc, hc'⟩ | ⟨-, -, hc, hc'⟩)
  all_goals
    rw [hd] at hc
    cases hc
    rw [hm] at hc'
    cases hc'

/-- A cell that is not there or is marked already adds nothing to what is found. -/
theorem finds_cons_of_blocked (hp : ∀ c, h.get? p = some c → c.isMarked = true)
    {rest : List Address} {q : Address} : h.Finds (p :: rest) q ↔ h.Finds rest q := by
  constructor
  · intro hq
    induction hq with
    | start hs hc hm =>
      rcases List.mem_cons.1 hs with rfl | hs
      · rw [hp _ hc] at hm
        cases hm
      · exact .start hs hc hm
    | step _ hr hc hm ih => exact .step ih hr hc hm
  · intro hq
    induction hq with
    | start hs hc hm => exact .start (List.mem_cons_of_mem _ hs) hc hm
    | step _ hr hc hm ih => exact .step ih hr hc hm

theorem clearMarks_put_mark (hc : h.get? p = some c) : (h.put p c.mark).clearMarks = h.clearMarks := by
  have key : ∀ {cells : Array Cell} {i : Nat}, cells[i]? = some c →
      (cells.setIfInBounds i c.mark).map (·.unmark) = cells.map (·.unmark) := by
    intro cells i hi
    obtain ⟨hlt, rfl⟩ := Array.getElem?_eq_some_iff.1 hi
    have hlt' : i < (cells.map (·.unmark)).size := by simpa using hlt
    have hself : cells[i].mark.unmark = (cells.map (·.unmark))[i] := by simp [Cell.mark, Cell.unmark]
    rw [Array.map_setIfInBounds, hself, Array.setIfInBounds_def, dif_pos hlt', Array.set_getElem_self]
  unfold get? at hc
  unfold put
  split at hc
  · split at hc
    · rename_i s hs ha
      simp only [clearMarks, ha, if_true, key hc]
    · cases hc
  · simp only [clearMarks, key hc]

/-- How many cells of a buffer are marked. -/
abbrev markedIn (cells : Array Cell) : Nat := cells.countP (·.isMarked)

theorem countP_mark {cells : Array Cell} {i : Nat} (hi : cells[i]? = some c)
    (hm : c.isMarked = false) : markedIn (cells.setIfInBounds i c.mark) = markedIn cells + 1 := by
  obtain ⟨hlt, rfl⟩ := Array.getElem?_eq_some_iff.1 hi
  rw [markedIn, Array.setIfInBounds_def, dif_pos hlt, Array.countP_set hlt, hm]
  rfl

/-- The counts of a mark phase grow with the marks. -/
theorem markedIn_put_mark (hc : h.get? p = some c) (hm : c.isMarked = false) (s : ReachedCells) :
    (s.count p).young + markedIn h.active = s.young + markedIn (h.put p c.mark).active ∧
      (s.count p).old + markedIn h.old = s.old + markedIn (h.put p c.mark).old := by
  unfold get? at hc
  unfold put ReachedCells.count Address.isOld
  split at hc
  · rename_i s' hs
    split at hc
    · rename_i ha
      have := countP_mark hc hm
      simp only [hs, ha, if_true]
      simp; omega
    · cases hc
  · rename_i hs
    have := countP_mark hc hm
    simp only [hs]
    simp; omega

/-! ## The mark phase -/

/-- **What a mark phase marks**: what was marked before, and what it finds. -/
theorem marks_trace_iff (queue : List Address) (m : Marking) {q : Address} :
    (trace queue m).heap.Marks q ↔ m.heap.Marks q ∨ m.heap.Finds queue q := by
  fun_induction trace queue m with
  | case1 m => rw [or_iff_left not_finds_nil]
  | case2 m p rest hc ih =>
    rw [ih, finds_cons_of_blocked fun c hc' => by rw [hc] at hc'; cases hc']
  | case3 m p rest c hc hm ih =>
    rw [ih, finds_cons_of_blocked fun c' hc' => by rw [hc] at hc'; cases hc'; exact hm]
  | case4 m p rest c hc hm ih =>
    rw [ih, marks_put_mark hc, ← finds_cons_iff hc (by simpa using hm), or_comm (a := q = p), or_assoc]

theorem clearMarks_trace (queue : List Address) (m : Marking) :
    (trace queue m).heap.clearMarks = m.heap.clearMarks := by
  fun_induction trace queue m with
  | case1 m => rfl
  | case2 m p rest hc ih => exact ih
  | case3 m p rest c hc hm ih => exact ih
  | case4 m p rest c hc hm ih => exact ih.trans (clearMarks_put_mark hc)

theorem counts_trace (queue : List Address) (m : Marking) :
    (trace queue m).summary.young + markedIn m.heap.active =
        m.summary.young + markedIn (trace queue m).heap.active ∧
      (trace queue m).summary.old + markedIn m.heap.old =
        m.summary.old + markedIn (trace queue m).heap.old := by
  fun_induction trace queue m with
  | case1 m => exact ⟨rfl, rfl⟩
  | case2 m p rest hc ih => exact ih
  | case3 m p rest c hc hm ih => exact ih
  | case4 m p rest c hc hm ih =>
    have := markedIn_put_mark hc (by simpa using hm) m.summary
    simp only at ih
    omega

theorem marks_mark_iff (h : Heap) {p : Address} :
    h.mark.heap.Marks p ↔ h.Marks p ∨ h.Finds h.roots.addresses p :=
  marks_trace_iff _ _

theorem Clean.marks_mark_iff (hh : h.Clean) {p : Address} : h.mark.heap.Marks p ↔ h.Rooted p := by
  rw [Heap.marks_mark_iff, hh.finds_iff, or_iff_right (hh.not_marks p), Rooted]

theorem clearMarks_mark (h : Heap) : h.mark.heap.clearMarks = h.clearMarks :=
  clearMarks_trace _ _

/-- The young cells that a mark phase counts are those that it marks afresh. -/
theorem young_mark (h : Heap) :
    h.mark.summary.young + markedIn h.active = markedIn h.mark.heap.active :=
  (counts_trace h.roots.addresses { heap := h }).1.trans (Nat.zero_add _)

theorem Clean.clearMarks (hh : h.Clean) : h.clearMarks = h := by
  have key : ∀ {cells : Array Cell}, (∀ c ∈ cells, c.isMarked = false) →
      cells.map (·.unmark) = cells := by
    intro cells hcells
    refine (Array.map_congr_left fun c hc => ?_).trans (Array.map_id cells)
    have := hcells c hc
    rcases c with ⟨_, _, ⟨_, _, _, _⟩⟩
    simp_all [Cell.unmark, Cell.isMarked]
  simp only [Heap.clearMarks, key hh.1, key hh.2]

/-! ## Heaps that are the same but for their marks -/

theorem get?_clearMarks (h : Heap) (p : Address) :
    h.clearMarks.get? p = (h.get? p).map (·.unmark) := by
  unfold get?
  cases p.space with
  | young s => by_cases hs : s = h.side.number <;> simp [Heap.clearMarks, hs]
  | old => simp [Heap.clearMarks]

end Tenure.Heap
