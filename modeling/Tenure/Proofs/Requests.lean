/-
  Tenure — what heaps answer.

  Whatever clients have written into roots, slots and flags, a collection or an
  allocation comes to an answer, unless a total runs over.

  * `Heap.NearLimit`: the totals are so high that this may happen.
  * `Heap.Collects`: what a collection makes of a heap; `exists_collects`,
    `peak_le_of_collects`: it comes to an answer, and what it adds to the totals.
  * `answersUnless_addRoot`, `answersUnless_collect`, `answersUnless_allocate`,
    `answersUnless_allocateLinked`: the requests to a store.
  * `Store.Overflows`: where they stop otherwise; `yields_collect`, `yields_allocate`,
    `yields_allocateLinked`.
-/
import Tenure.Proofs.ReachableStores

namespace Tenure

namespace Heap

/-- The totals are so high that a collection may make one of them run over. -/
def NearLimit (h : Heap) : Prop :=
  Word.limit ≤ h.counters.peak + max h.settings.youngCapacity h.settings.oldCapacity

/-- `h'` is what a collection makes of `h`, with the totals that belong to that, were they to run over
    or not. -/
inductive Collects (h : Heap) : Heap → Prop
  | abandoned : Collects h { h.prepared.clearMarks with counters := h.counters.abandoned }
  | moved {h' : Heap} : h.prepared.Moves h.purged.mark.summary h' → Collects h h'

variable {h h' : Heap}

theorem collects_of_collect {c : Collection} (hc : h.collect = .ok c) : h.Collects c.heap := by
  obtain ⟨-, heap, outcome, rfl, ⟨-, ha, -⟩ | ⟨-, hm⟩⟩ := collect_cases hc
  · obtain rfl := eq_of_abandon ha
    show h.Collects { h.prepared.clearMarks with counters := h.prepared.counters.abandoned }
    rw [counters_prepared]
    exact .abandoned
  · exact .moved (moves_of_move hm)

theorem young_mark_le (h : Heap) : h.mark.summary.young ≤ h.active.size := by
  have hcount := h.young_mark
  have hle : markedIn h.mark.heap.active ≤ h.mark.heap.active.size := Array.countP_le_size
  have hsize := congrArg (·.active.size) (clearMarks_mark h)
  simp only [clearMarks, Array.size_map] at hsize
  omega

namespace WellFormed

theorem bulk_le (hh : h.WellFormed) :
    max 1 (max h.active.size h.old.size) ≤ max h.settings.youngCapacity h.settings.oldCapacity := by
  have := hh.settings.1
  have := hh.young
  have := hh.old
  omega

/-- **A collection comes to an answer**, unless a total would run over in the heap that it leaves. -/
theorem exists_collects (hh : h.WellFormed) : ∃ h', h.Collects h' ∧
    ((∃ c, h.collect = .ok c ∧ c.heap = h') ∨
      (Word.limit ≤ h'.counters.peak ∧ h.collect = .error .additionOverflow)) := by
  have hp := hh.prepared
  rw [collect_eq hh.idle]
  split
  · -- giving up makes one of the totals grow
    refine ⟨_, .abandoned, ?_⟩
    rw [abandon, counters_prepared]
    rcases Counters.recordAbandoned_cases h.counters with hc | ⟨hlimit, hc⟩
    · rw [hc]
      exact Or.inl ⟨_, rfl, rfl⟩
    · rw [hc]
      exact Or.inr ⟨hlimit, rfl⟩
  · rename_i hroom
    have hyoung : h.settings.youngCapacity < Address.limit := hh.settings.2.1
    have hold : h.settings.oldCapacity < Address.limit := hh.settings.2.2.1
    have hsizes := And.intro hp.young hp.old
    rw [settings_prepared] at hsizes
    have hsummary : h.purged.mark.summary.young ≤ h.prepared.active.size := by
      rw [size_active_prepared]
      exact h.purged.young_mark_le
    obtain ⟨h', hmoves, hends⟩ :=
      exists_move hp.idle hp.relocations (by omega) (by omega) (by omega) hsummary
    refine ⟨h', .moved hmoves, ?_⟩
    rcases hends with ⟨outcome, hm⟩ | ⟨hlimit, hm⟩
    · rw [hm]
      exact Or.inl ⟨_, rfl, rfl⟩
    · rw [hm]
      exact Or.inr ⟨hlimit, rfl⟩

/-- What a collection adds to the totals. -/
theorem peak_le_of_collects (hh : h.WellFormed) (hc : h.Collects h') :
    h'.counters.peak ≤ h.counters.peak + max h.settings.youngCapacity h.settings.oldCapacity := by
  have hp := hh.prepared
  have hbulk := hp.bulk_le
  rw [settings_prepared] at hbulk
  cases hc with
  | abandoned =>
    have hle := Counters.peak_abandoned_le h.counters
    show h.counters.abandoned.peak ≤ _
    omega
  | moved hm =>
    obtain ⟨hr, he, hle⟩ := hm
    rename_i r e
    have hmost := most_reportOf_le hp.relocations hr
      (Nat.sub_le h.prepared.active.size h.purged.mark.summary.young)
    have hpeak := Counters.peak_recorded_le (h.prepared.reportOf h.prepared.plan
      (h.prepared.active.size - h.purged.mark.summary.young) r.dropped.size) h.prepared.counters
    rw [counters_prepared] at hpeak
    show (Counters.recorded _ h.prepared.counters).peak ≤ _
    rw [counters_prepared]
    omega

theorem collect_answers (hh : h.WellFormed) :
    (∃ c, h.collect = .ok c) ∨ (h.NearLimit ∧ h.collect = .error .additionOverflow) := by
  obtain ⟨h', hcollects, ⟨c, hc, -⟩ | ⟨hlimit, hc⟩⟩ := hh.exists_collects
  · exact Or.inl ⟨c, hc⟩
  · exact Or.inr ⟨hlimit.trans (hh.peak_le_of_collects hcollects), hc⟩

end WellFormed

end Heap

namespace Store

variable {s s' : Store} {count : Nat}

/-- A root is registered as long as there are serial numbers. -/
theorem answersUnless_addRoot (p : Address) :
    Action.AnswersUnless (Word.limit ≤ s.heap.roots.next + 1) (addRoot p) s := by
  rcases Nat.lt_or_ge (s.heap.roots.next + 1) Word.limit with hlt | hle
  · exact .of_ok (addRoot_of_lt hlt p)
  · exact Or.inr ⟨hle, s, addRoot_of_le hle p⟩

theorem collect_of_ok {c : Collection} (hheap : s.heap.collect = .ok c) :
    ∃ r s', s.collect = .ok r s' := by
  unfold collect
  rw [hheap]
  simp only
  split <;> exact ⟨_, _, rfl⟩

theorem collect_of_fault {fault : Fault} (hheap : s.heap.collect = .error fault) :
    s.collect = .error fault s := by
  unfold collect
  rw [hheap]

/-- The heap is still that of `s`, and some total would run over in its collection. -/
def Overflows (s t : Store) : Prop :=
  t.heap = s.heap ∧ s.heap.collect = .error .additionOverflow

theorem Overflows.nearLimit (h : s.Overflows s') (hh : s.heap.WellFormed) : s.heap.NearLimit := by
  rcases hh.collect_answers with ⟨c, hc⟩ | ⟨hlimit, -⟩
  · cases hc.symm.trans h.2
  · exact hlimit

theorem yields_collect (hh : s.heap.WellFormed) :
    Action.Yields s.Overflows Store.collect s fun r t => s.collect = .ok r t := by
  obtain ⟨-, -, ⟨c, hc, -⟩ | ⟨-, hc⟩⟩ := hh.exists_collects
  · obtain ⟨r, s', hs'⟩ := collect_of_ok hc
    exact .of_ok hs' hs'
  · exact Or.inr ⟨s, collect_of_fault hc, rfl, hc⟩

theorem answersUnless_collect (hh : s.heap.WellFormed) :
    Action.AnswersUnless s.heap.NearLimit Store.collect s :=
  (yields_collect hh).answersUnless fun _ h => h.nearLimit hh

theorem yields_makeRoom (hh : s.heap.WellFormed) (count : Nat) :
    (makeRoom count).Yields s.Overflows s fun r t => s.makeRoom count = .ok r t := by
  refine .answer (P := fun _ _ => True) ?_ fun _ _ h => h
  unfold makeRoom
  refine .step (a := s) rfl ?_
  split
  · exact .of_ok rfl trivial
  · refine .step (a := ()) rfl (.bind (yields_collect (s := s.log (.fullFor count)) hh) ?_)
    intro r t _
    cases r with
    | error error => exact .of_ok rfl trivial
    | ok report =>
      refine .step (a := t) rfl ?_
      simp only
      split
      · exact .of_ok rfl trivial
      · exact .of_ok rfl trivial

/-- A block for which there is room has addresses. -/
theorem exists_grow (hh : s.heap.WellFormed) (hcount : 0 < count) (hroom : count ≤ s.heap.room) :
    ∃ heap p, s.heap.grow count = .ok (heap, p) ∧ p.position + count ≤ Address.limit := by
  have hcapacity : s.heap.settings.youngCapacity < Address.limit := hh.settings.2.1
  rw [Heap.room] at hroom
  obtain ⟨p, hp⟩ := Address.exists_make (s := s.heap.activeBuffer) (i := s.heap.active.size) (by omega)
  refine ⟨_, p, bind_eq_ok_iff.2 ⟨p, hp, rfl⟩, ?_⟩
  rw [(Address.make_eq_ok_iff.1 hp).2]
  omega

/-- **A request for a block comes to an answer**, unless a total would run over in the collection that
    it takes. -/
theorem yields_allocate (hh : s.heap.WellFormed) (count : Nat) :
    (allocate count).Yields s.Overflows s fun a t => s.allocate count = .ok a t := by
  refine .answer (P := fun _ _ => True) ?_ fun _ _ h => h
  unfold allocate
  refine .step (a := s) rfl ?_
  simp only
  split
  · exact .of_ok rfl trivial
  · rename_i hsize
    refine .bind (yields_makeRoom hh count) ?_
    intro r t hr
    obtain ⟨htidied, hroom⟩ := makeRoom_cases hr
    cases r with
    | error error => exact .of_ok rfl trivial
    | ok _ =>
      obtain ⟨heap, p, hg, -⟩ :=
        exists_grow (wellFormed_tidied hh htidied) (by omega) (hroom rfl)
      refine .step (a := p) (t := { t with heap }) ?_ (.of_ok rfl trivial)
      rw [grow, hg]

theorem answersUnless_allocate (hh : s.heap.WellFormed) (count : Nat) :
    (allocate count).AnswersUnless s.heap.NearLimit s :=
  (yields_allocate hh count).answersUnless fun _ h => h.nearLimit hh

/-- All cells of a new block have addresses. -/
theorem exists_block_of_allocate (hh : s.heap.WellFormed) {p : Address}
    (ha : s.allocate count = .ok (.ok p) s') : ∃ block, p.block count = .ok block := by
  obtain ⟨t, htidied, ⟨_, he, _⟩ | ⟨heap, q, hq, hcount, hroom, hg, _⟩⟩ := allocate_cases ha
  · cases he
  · cases hq
    obtain ⟨heap', q', hg', hle⟩ := exists_grow (wellFormed_tidied hh htidied) hcount hroom
    rw [hg] at hg'
    cases hg'
    exact Address.exists_block hle

/-- The cells of a new block are blank. -/
theorem blank_of_allocate {p q : Address} {block : List Address}
    (ha : s.allocate count = .ok (.ok p) s') (hb : p.block count = .ok block) (hq : q ∈ block) :
    s'.heap.get? q = some .blank := by
  obtain ⟨t, -, ⟨_, he, _⟩ | ⟨heap, p', hp, -, -, hg, rfl⟩⟩ := allocate_cases ha
  · cases he
  cases hp
  obtain ⟨first, hfirst, hg⟩ := bind_eq_ok_iff.1 hg
  cases hg
  obtain ⟨hspace, hpos⟩ := Address.make_eq_ok_iff.1 hfirst
  obtain ⟨hlength, hget⟩ := Address.getElem?_block hb
  obtain ⟨k, hk, rfl⟩ := List.getElem_of_mem hq
  obtain ⟨hqs, hqp⟩ := hget k _ (List.getElem?_eq_getElem hk)
  have hactive : block[k].space = t.heap.side.space := hqs.trans hspace
  rw [Heap.get?_of_active _ (by exact hactive), hqp, hpos]
  show (t.heap.active ++ Array.replicate count Cell.blank)[t.heap.active.size + k]? = some .blank
  rw [Array.getElem?_append_right (Nat.le_add_right _ _), Array.getElem?_replicate, if_pos (by omega)]

theorem yields_allocateLinked (hh : s.heap.WellFormed) (count : Nat) :
    (allocateLinked count).Yields s.Overflows s fun a t => s.allocateLinked count = .ok a t := by
  refine .answer (P := fun _ _ => True) ?_ fun _ _ h => h
  unfold allocateLinked
  refine .bind (yields_allocate hh count) ?_
  intro r t hr
  cases r with
  | error error => exact .of_ok rfl trivial
  | ok p =>
    obtain ⟨block, hblock⟩ := exists_block_of_allocate hh hr
    refine .step (Action.lift_eq_ok_iff.2 ⟨hblock, rfl⟩) ?_
    exact .step (a := ()) rfl (.of_ok rfl trivial)

theorem answersUnless_allocateLinked (hh : s.heap.WellFormed) (count : Nat) :
    (allocateLinked count).AnswersUnless s.heap.NearLimit s :=
  (yields_allocateLinked hh count).answersUnless fun _ h => h.nearLimit hh

end Store

end Tenure
