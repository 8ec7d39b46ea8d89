/-
  Tenure — the totals of a heap.

  Every cell that was allocated is young or old, or has been reported as reclaimed.  What the other
  totals count is paid for by the cells as well: a cell becomes old once, it is copied twice at most
  before that, and a request for cells runs one collection at most.

  * `Heap.accounted`: the cells that there are, and those that were reclaimed; `accounted_collects`: a
    collection loses none.
  * `Heap.credit`: how often the young cells may still be copied; `copied_collects`: a copy uses it up.
  * `Heap.Covered`: the totals are paid for; `Covered.collects`, `Covered.grow`, `Covered.put`,
    `Covered.link`: they remain so.
  * `Covered.limit_le`: a total runs over only where very many cells were allocated.
-/
import Mathlib.Algebra.Ring.Nat
import Tenure.Proofs.Requests

namespace Tenure

theorem Cell.age_unmark (c : Cell) : c.unmark.flags.age = c.flags.age := rfl

/-- A cell that stays young is one collection older. -/
theorem Cell.age_survive (c : Cell) : c.survive.flags.age = min (c.flags.age + 1) 2 := by
  obtain ⟨-, -, ⟨-, once, twice, -⟩⟩ := c
  cases once <;> cases twice <;> rfl

namespace Heap

variable {h h' : Heap} {p : Address} {c d : Cell} {count more : Nat}

/-! ## Cells -/

/-- The cells that there are, and those that were reclaimed. -/
def accounted (h : Heap) : Nat :=
  h.occupancy.youngUsed + h.occupancy.oldUsed + h.counters.reclaimed + h.counters.oldReclaimed

theorem accounted_put (h : Heap) (p : Address) (c : Cell) : (h.put p c).accounted = h.accounted := by
  unfold put
  split
  · split
    · simp [accounted, occupancy]
    · rfl
  · simp [accounted, occupancy]

theorem accounted_clearMarks (h : Heap) : h.clearMarks.accounted = h.accounted := by
  simp [accounted, occupancy, clearMarks]

theorem accounted_grow (hg : h.grow count = .ok (h', p)) : h'.accounted = h.accounted + count := by
  obtain ⟨first, -, hg⟩ := bind_eq_ok_iff.1 hg
  cases hg
  simp only [accounted, occupancy, Array.size_append, Array.size_replicate]
  omega

/-- The sizes of the buffers after the cells were moved. -/
theorem sizes_moves {r : Compaction.Result} {e : Evacuation} (hidle : h.idle = #[])
    (he : Evacuation.run h.settings.promotionThreshold h.side h.active.toList 0
      { young := h.idle, old := r.kept, moves := r.moves } = .ok e) :
    e.young.size =
        (Evacuation.staying h.settings.promotionThreshold h.active.toList).length ∧
      e.old.size = r.kept.size +
        (Evacuation.leaving h.settings.promotionThreshold h.active.toList).length := by
  obtain ⟨hyoung, hold, -⟩ := Evacuation.run_buffers he
  exact ⟨by simp [hyoung, hidle], by simp [hold]⟩

/-- **A collection** loses the cells that it reports as reclaimed, and no others. -/
theorem accounted_collects (hidle : h.idle = #[]) (hclean : h.Clean) (hc : h.Collects h') :
    h'.accounted = h.accounted := by
  cases hc with
  | abandoned => simp [accounted, occupancy, clearMarks, Counters.abandoned]
  | moved hm =>
    obtain ⟨hr, he, hle⟩ := hm
    obtain ⟨hyoung, hold⟩ := sizes_moves ((idle_prepared h).trans hidle) he
    obtain ⟨-, hdropped⟩ := size_compacted rfl hr
    -- the mark phase counts the young cells that it marks, and there were no others
    have hzero : markedIn h.purged.active = 0 := by
      rw [markedIn, Array.countP_eq_zero]
      exact fun c hc => by rw [hclean.1 c hc]; exact Bool.false_ne_true
    have hmarked := h.purged.young_mark
    have hmoved := (Evacuation.length_staying_add_leaving h.prepared.settings.promotionThreshold
      h.prepared.active.toList).trans (show _ = markedIn h.prepared.active from Array.countP_toList)
    have hsame : markedIn h.prepared.active = markedIn h.purged.mark.heap.active := rfl
    rw [size_active_prepared] at hle
    rw [size_old_prepared] at hdropped
    simp only [accounted, occupancy, settle, Counters.recorded, reportOf, Array.size_map,
      size_active_prepared, counters_prepared]
    omega

/-! ## Copies -/

/-- How often some cells may still be copied: a cell that was copied twice becomes old at the next
    collection. -/
def creditOf (cells : List Cell) : Nat := (cells.map fun c => 2 - c.flags.age).sum

/-- How often the young cells may still be copied. -/
def credit (h : Heap) : Nat := creditOf h.active.toList

theorem creditOf_congr {f : Cell → Cell} (hf : ∀ c, (f c).flags.age = c.flags.age) (cells : List Cell) :
    creditOf (cells.map f) = creditOf cells := by
  simp only [creditOf, List.map_map, Function.comp_def, hf]

/-- A cell that stays young uses up some of its credit. -/
theorem creditOf_staying {threshold : Nat} (hmax : threshold ≤ 3) (cells : List Cell) :
    (Evacuation.staying threshold cells).length + creditOf (Evacuation.staying threshold cells) ≤
      creditOf cells := by
  induction cells with
  | nil => exact Nat.le_refl _
  | cons c rest ih =>
    have hcons : creditOf (c :: rest) = (2 - c.flags.age) + creditOf rest := rfl
    rw [Evacuation.staying, List.filter_cons]
    split
    · rename_i hstays
      have hdue : c.flags.age + 1 < threshold := by
        have := (Bool.and_eq_true_iff.1 hstays).2
        simpa [Cell.isDue] using this
      have hage := c.age_survive
      have hrest : creditOf ((c :: rest.filter fun c => c.isMarked && !c.isDue threshold).map
          Cell.survive) = (2 - c.survive.flags.age) + creditOf (Evacuation.staying threshold rest) := rfl
      have hlength : ((c :: rest.filter fun c => c.isMarked && !c.isDue threshold).map
          Cell.survive).length = (Evacuation.staying threshold rest).length + 1 := by
        simp [Evacuation.staying]
      rw [hrest, hlength]
      omega
    · exact ih.trans (hcons ▸ Nat.le_add_left _ _)

theorem credit_prepared (h : Heap) : h.prepared.credit = h.credit := by
  have hsame := congrArg (·.active.toList) (clearMarks_prepared h)
  simp only [clearMarks, Array.toList_map] at hsame
  have hcredit := congrArg creditOf hsame
  rw [creditOf_congr Cell.age_unmark, creditOf_congr Cell.age_unmark] at hcredit
  exact hcredit

theorem credit_clearMarks (h : Heap) : h.clearMarks.credit = h.credit := by
  rw [credit, clearMarks, Array.toList_map, creditOf_congr Cell.age_unmark]
  rfl

theorem credit_put (hc : h.get? p = some c) (hd : d.flags = c.flags) : (h.put p d).credit = h.credit := by
  have key : ∀ {cells : Array Cell} {i : Nat}, cells[i]? = some c →
      (cells.setIfInBounds i d).map (·.flags) = cells.map (·.flags) := by
    intro cells i hi
    refine Array.ext_getElem? fun j => ?_
    rw [Array.getElem?_map, Array.getElem?_map, Array.getElem?_setIfInBounds]
    split
    · rename_i hj
      subst hj
      obtain ⟨hlt, rfl⟩ := Array.getElem?_eq_some_iff.1 hi
      simp [hlt, hd]
    · rfl
  have hcredit : ∀ {h h' : Heap}, h'.active.map (·.flags) = h.active.map (·.flags) →
      h'.credit = h.credit := by
    intro h h' hflags
    have hlist := congrArg (fun flags => (flags.toList.map fun f : Flags => 2 - f.age).sum) hflags
    simpa [credit, creditOf, Function.comp_def] using hlist
  unfold get? at hc
  unfold put
  split at hc
  · split at hc
    · rename_i s hs ha
      simp only [ha, if_true]
      exact hcredit (key hc)
    · cases hc
  · rfl

theorem credit_grow (hg : h.grow count = .ok (h', p)) : h'.credit = h.credit + 2 * count := by
  obtain ⟨first, -, hg⟩ := bind_eq_ok_iff.1 hg
  cases hg
  simp [credit, creditOf, Cell.blank, Flags.age, Nat.mul_comm]

/-! ## Totals -/

/-- The totals are paid for by the cells that were allocated, and `more` collections were run that are
    not. -/
structure Covered (h : Heap) (more : Nat) : Prop where
  promoted : h.counters.promoted ≤ h.old.size + h.counters.oldReclaimed
  copied : h.counters.copied + h.credit ≤ 2 * h.accounted
  attempts : h.counters.youngCollections + h.counters.failedCollections ≤ h.accounted + more
  compactions : h.counters.oldCollections ≤ h.counters.youngCollections

theorem covered_make (settings : Settings) (registry : Nat) : (make settings registry).Covered 0 :=
  ⟨Nat.le_refl _, Nat.le_refl _, Nat.le_refl _, Nat.le_refl _⟩

namespace Covered

theorem peak_le (hc : h.Covered more) : h.counters.peak ≤ 2 * h.accounted + more := by
  obtain ⟨hpromoted, hcopied, hattempts, hcompactions⟩ := hc
  have haccounted : h.accounted =
      h.active.size + h.old.size + h.counters.reclaimed + h.counters.oldReclaimed := rfl
  rw [Counters.peak_le_iff]
  omega

/-- **One collection more.** -/
theorem collects (hc : h.Covered more) (hh : h.WellFormed) (hclean : h.Clean)
    (hcollects : h.Collects h') : h'.Covered (more + 1) := by
  obtain ⟨hpromoted, hcopied, hattempts, hcompactions⟩ := hc
  have haccounted := accounted_collects hh.idle hclean hcollects
  cases hcollects with
  | abandoned =>
    refine ⟨?_, ?_, ?_, hcompactions⟩
    · simpa [clearMarks, Counters.abandoned] using hpromoted
    · rw [haccounted]
      show h.counters.copied + h.prepared.clearMarks.credit ≤ _
      rw [credit_clearMarks, credit_prepared]
      exact hcopied
    · rw [haccounted]
      show h.counters.youngCollections + (h.counters.failedCollections + 1) ≤ _
      omega
  | moved hm =>
    obtain ⟨hr, he, hle⟩ := hm
    rename_i r e
    have hp := hh.prepared
    obtain ⟨hyoung, hold⟩ := sizes_moves hp.idle he
    obtain ⟨-, hdropped⟩ := size_compacted hp.relocations hr
    have hbuffer := (Evacuation.run_buffers he).1
    have hstaying := creditOf_staying hp.settings.2.2.2.2.2 h.prepared.active.toList
    have hprepared : creditOf h.prepared.active.toList = h.credit := credit_prepared h
    have hcredit : (h.prepared.settle e).credit =
        creditOf (Evacuation.staying h.prepared.settings.promotionThreshold h.prepared.active.toList) := by
      show creditOf (e.young.map e.moves.updateCell).toList = _
      rw [Array.toList_map, creditOf_congr (f := e.moves.updateCell) fun _ => rfl, hbuffer, hp.idle]
      simp
    rw [size_old_prepared] at hdropped
    refine ⟨?_, ?_, ?_, ?_⟩
    · show h.prepared.counters.promoted + _ ≤ (e.old.map _).size + (h.prepared.counters.oldReclaimed + _)
      rw [counters_prepared, Array.size_map, hold]
      simp only [reportOf]
      omega
    · rw [haccounted]
      show h.prepared.counters.copied + _ + (h.prepared.settle e).credit ≤ _
      rw [counters_prepared, hcredit]
      simp only [reportOf]
      omega
    · rw [haccounted]
      show h.prepared.counters.youngCollections + 1 + h.prepared.counters.failedCollections ≤ _
      rw [counters_prepared]
      omega
    · refine (Counters.oldCollections_recorded_le _ _).trans ?_
      rw [counters_prepared]
      exact Nat.succ_le_succ hcompactions

/-- **A block** pays for one collection. -/
theorem grow (hc : h.Covered 1) (hcount : 0 < count) (hg : h.grow count = .ok (h', p)) :
    h'.Covered 0 := by
  have haccounted := accounted_grow hg
  have hcredit := credit_grow hg
  obtain ⟨hpromoted, hcopied, hattempts, hcompactions⟩ := hc
  obtain ⟨first, -, hg⟩ := bind_eq_ok_iff.1 hg
  cases hg
  refine ⟨hpromoted, ?_, ?_, hcompactions⟩
  · rw [haccounted, hcredit]
    show h.counters.copied + _ ≤ _
    omega
  · rw [haccounted]
    show h.counters.youngCollections + h.counters.failedCollections ≤ _
    omega

theorem congr (hc : h.Covered more) (hcounters : h'.counters = h.counters)
    (hold : h'.old.size = h.old.size) (hcredit : h'.credit = h.credit)
    (haccounted : h'.accounted = h.accounted) : h'.Covered more where
  promoted := by
    rw [hcounters, hold]
    exact hc.promoted
  copied := by
    rw [hcounters, hcredit, haccounted]
    exact hc.copied
  attempts := by
    rw [hcounters, haccounted]
    exact hc.attempts
  compactions := by
    rw [hcounters]
    exact hc.compactions

theorem mapRoots (hc : h.Covered more) (f : RootRegistry → RootRegistry) :
    (h.mapRoots f).Covered more :=
  hc.congr rfl rfl rfl rfl

theorem put (hc : h.Covered more) (hp : h.get? p = some c) (hd : d.flags = c.flags) :
    (h.put p d).Covered more :=
  hc.congr (counters_put h p d) (size_old_put h p d) (credit_put hp hd) (accounted_put h p d)

theorem link (hc : h.Covered more) (block : List Address) : (h.link block).Covered more := by
  fun_induction Heap.link h block with
  | case1 h p q rest ih =>
    refine ih ?_
    rw [modify]
    split
    · rename_i c hp
      exact hc.put hp (Cell.flags_setSlot c _ _)
    · exact hc
  | case2 h block => exact hc

theorem mono (hc : h.Covered more) {most : Nat} (hle : more ≤ most) : h.Covered most :=
  { hc with attempts := hc.attempts.trans (Nat.add_le_add_left hle _) }

/-- **A total runs over** only where very many cells were allocated. -/
theorem limit_le (hc : h.Covered 0) (hh : h.WellFormed) (hclean : h.Clean)
    (hfault : h.collect = .error .additionOverflow) : Word.limit ≤ 2 * h.accounted := by
  obtain ⟨h', hcollects, ⟨c, hok, -⟩ | ⟨hlimit, -⟩⟩ := hh.exists_collects
  · cases hok.symm.trans hfault
  · have hpeak := (hc.collects hh hclean hcollects).peak_le
    rw [accounted_collects hh.idle hclean hcollects] at hpeak
    -- the limit is an even number
    have heven : Word.limit = 2 * 9223372036854775808 := rfl
    omega

end Covered

end Heap

end Tenure
