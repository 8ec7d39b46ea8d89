/-
  Tenure — how old cells are.

  As long as clients leave the flags alone these are changed by collections only.  Then they tell how
  many collections a cell has survived, as far as it matters, and in which generation it is.

  * `Store.Step`, `Store.FlagSafe`: clients that leave flags alone, and the stores that they bring
    about.
  * `Store.HasSurvived`: a cell that has survived so many collections, and where it is;
    `HasSurvived.collect`: a root says where that is.
  * `flags_tell_age`: what its flags are, and in which generation it is.
-/
import Tenure.Proofs.CellFlags

namespace Tenure

namespace Store

/-- What a client does that leaves the flags of cells alone, and whether a collection has succeeded
    in it. -/
inductive Step : Store → Bool → Store → Prop
  | outside {s} (values journal) : Step s false { s with values, journal }
  | roots {s} (f : RootRegistry → RootRegistry) : Step s false (s.mapHeap (·.mapRoots f))
  | write {s p half payload s'} : s.write p half payload = .ok () s' → Step s false s'
  /-- Slots may be written in other ways, as long as the flags stay. -/
  | put {s p c d} : s.heap.get? p = some c → d.flags = c.flags →
    Step s false (s.mapHeap (·.put p d))
  | clearMarks {s} : Step s false s.clearMarks
  | refused {s error s'} : s.collect = .ok (.error error) s' → Step s false s'
  | collect {s report s'} : s.collect = .ok (.ok report) s' → Step s true s'
  | allocate {s count r s' collected} : s.allocate count = .ok r s' →
    (collected = true ↔ s.CollectsFor count) → Step s collected s'
  | allocateLinked {s count r s' collected} : s.allocateLinked count = .ok r s' →
    (collected = true ↔ s.CollectsFor count) → Step s collected s'

/-- The stores that such clients bring about. -/
inductive FlagSafe : Store → Prop
  | start {settings registry heap} (values journal) :
    Heap.make? settings registry = .ok heap → FlagSafe { heap, values, journal }
  | step {s collected s'} : FlagSafe s → s.Step collected s' → FlagSafe s'

/-- The cell at `p` has survived `k` collections since its allocation: the roots have reached it
    whenever one of them succeeded. -/
inductive HasSurvived : Store → Address → Nat → Prop
  | allocate {s s' : Store} {count : Nat} {q p : Address} {block : List Address} : s.FlagSafe →
    s.allocate count = .ok (.ok q) s' → q.block count = .ok block → p ∈ block → HasSurvived s' p 0
  | allocateLinked {s s' : Store} {count : Nat} {q p : Address} {block : List Address} : s.FlagSafe →
    s.allocateLinked count = .ok (.ok q) s' → q.block count = .ok block → p ∈ block →
      HasSurvived s' p 0
  | stay {s s' : Store} {p : Address} {k : Nat} : HasSurvived s p k → s.Step false s' → HasSurvived s' p k
  | move {s s' : Store} {p : Address} {k : Nat} : HasSurvived s p k → s.Step true s' →
    s.heap.purged.Rooted p → HasSurvived s' (s.heap.newAddress p) (k + 1)

variable {s s' : Store} {collected : Bool} {p q : Address} {k : Nat}

/-! ## Steps -/

theorem Step.wellFormed (h : s.Step collected s') (hh : s.heap.WellFormed) : s'.heap.WellFormed := by
  cases h with
  | outside => exact hh
  | roots f => exact hh.mapRoots f
  | write hw =>
    rcases write_ends (Or.inl hw) with ⟨c, -, rfl⟩ | rfl
    · obtain ⟨f, hf⟩ := (givesUp_releaseSlot (s.mapHeap (·.put _ _)) (c.slot _)).exists_mapRoots
      exact hf ▸ (hh.put _ _).mapRoots f
    · obtain ⟨f, hf⟩ := (givesUp_releaseSlot s _).exists_mapRoots
      exact hf ▸ hh.mapRoots f
  | put => exact hh.put _ _
  | clearMarks => exact Heap.wellFormed_clearMarks_iff.2 hh
  | refused hc => exact wellFormed_collect hh hc
  | collect hc => exact wellFormed_collect hh hc
  | allocate ha => exact wellFormed_allocate hh ha
  | allocateLinked ha =>
    obtain ⟨_, t, ha₀, ⟨_, -, -, rfl⟩ | ⟨_, block, -, -, -, rfl⟩⟩ := allocateLinked_cases ha
    · exact wellFormed_allocate hh ha₀
    · exact (wellFormed_allocate hh ha₀).link block

theorem Step.clean (h : s.Step collected s') (hclean : s.heap.Clean) : s'.heap.Clean := by
  cases h with
  | outside => exact hclean
  | roots f => exact hclean
  | write hw => exact clean_write hclean (Or.inl hw)
  | put hc hd => exact hclean.put _ ((congrArg Flags.marked hd).trans (hclean.isMarked hc))
  | clearMarks => exact Heap.clean_clearMarks _
  | refused hc => exact (exists_keepsDangling hc).choose_spec.clean
  | collect hc => exact (exists_keepsDangling hc).choose_spec.clean
  | allocate ha => exact clean_allocate hclean ha
  | allocateLinked ha => exact clean_allocateLinked hclean ha

/-- **What a step does to the flags.** -/
theorem Step.changesFlags (h : s.Step collected s') (hh : s.heap.WellFormed) (hclean : s.heap.Clean) :
    s.heap.ChangesFlags collected s'.heap := by
  cases h with
  | outside => exact .of_eq rfl rfl
  | roots f => exact .of_eq rfl rfl
  | write hw => exact keepsFlags_write hw
  | put hc hd => exact Heap.keepsFlags_put hc hd
  | clearMarks => exact .of_eq rfl (congrArg Heap.flags? hclean.clearMarks)
  | refused hc => exact keepsFlags_of_refused hh hclean hc
  | collect hc => exact ⟨_, ages_of_collect hh hclean hc, .of_eq rfl rfl⟩
  | allocate ha hcollected => exact changesFlags_allocate hh hclean ha hcollected
  | allocateLinked ha hcollected => exact changesFlags_allocateLinked hh hclean ha hcollected

/-! ## Runs -/

theorem FlagSafe.wellFormed (h : s.FlagSafe) : s.heap.WellFormed := by
  induction h with
  | start _ _ hm => exact Heap.wellFormed_of_make? hm
  | step _ hstep ih => exact hstep.wellFormed ih

theorem FlagSafe.clean (h : s.FlagSafe) : s.heap.Clean := by
  induction h with
  | start _ _ hm =>
    rw [Heap.eq_make_of_make? hm]
    exact Heap.clean_make _ _
  | step _ hstep ih => exact hstep.clean ih

/-- **Promoted cells are old** all the time, and old cells are promoted. -/
theorem FlagSafe.promotedOld (h : s.FlagSafe) : s.heap.PromotedOld := by
  induction h with
  | @start settings registry _ _ _ hm =>
    rw [Heap.eq_make_of_make? hm]
    intro p f hf
    obtain ⟨c, hc, -⟩ := Heap.flags?_eq_some_iff.1 hf
    rcases Heap.get?_mem hc with hmem | hmem
    · exact absurd hmem (Array.not_mem_empty c)
    · exact absurd hmem (Array.not_mem_empty c)
  | step hs hstep ih => exact ih.changesFlags (hstep.changesFlags hs.wellFormed hs.clean)

/-! ## Cells that survive -/

theorem exists_step_allocate {count : Nat} {r : Except HeapError Address}
    (ha : s.allocate count = .ok r s') : ∃ collected, s.Step collected s' := by
  by_cases hc : s.CollectsFor count
  · exact ⟨true, .allocate ha (iff_of_true rfl hc)⟩
  · exact ⟨false, .allocate ha (iff_of_false Bool.false_ne_true hc)⟩

theorem exists_step_allocateLinked {count : Nat} {r : Except HeapError Address}
    (ha : s.allocateLinked count = .ok r s') : ∃ collected, s.Step collected s' := by
  by_cases hc : s.CollectsFor count
  · exact ⟨true, .allocateLinked ha (iff_of_true rfl hc)⟩
  · exact ⟨false, .allocateLinked ha (iff_of_false Bool.false_ne_true hc)⟩

theorem HasSurvived.flagSafe (h : s.HasSurvived p k) : s.FlagSafe := by
  induction h with
  | allocate hs ha _ _ => exact hs.step (exists_step_allocate ha).choose_spec
  | allocateLinked hs ha _ _ => exact hs.step (exists_step_allocateLinked ha).choose_spec
  | stay _ hstep ih => exact ih.step hstep
  | move _ hstep _ ih => exact ih.step hstep

/-- **The ofAge on which a cell is**, and the generation. -/
theorem HasSurvived.flags? (h : s.HasSurvived p k) :
    s.heap.flags? p = some (Flags.ofAge s.heap.settings.promotionThreshold k) ∧
      (p.isOld ↔ s.heap.settings.promotionThreshold ≤ k) := by
  have hyoung : ∀ {s : Store} {p : Address}, s.heap.WellFormed → s.heap.flags? p = some {} ∧ ¬ p.isOld →
      s.heap.flags? p = some (Flags.ofAge s.heap.settings.promotionThreshold 0) ∧
        (p.isOld ↔ s.heap.settings.promotionThreshold ≤ 0) := by
    intro s p hh ⟨hflags, hp⟩
    have hmin : ¬ s.heap.settings.promotionThreshold ≤ 0 := Nat.not_le.2 hh.settings.2.2.2.2.1
    exact ⟨by rw [hflags, Flags.ofAge, if_neg hmin]; rfl, iff_of_false hp hmin⟩
  induction h with
  | allocate hs ha hb hp =>
    exact hyoung (wellFormed_allocate hs.wellFormed ha) (flags?_of_allocate hs.wellFormed ha hb hp)
  | allocateLinked hs ha hb hp =>
    have hstep := (exists_step_allocateLinked ha).choose_spec
    exact hyoung (hstep.wellFormed hs.wellFormed) (flags?_of_allocateLinked hs.wellFormed ha hb hp)
  | stay hs hstep ih =>
    have hu : Heap.KeepsFlags _ _ := hstep.changesFlags hs.flagSafe.wellFormed hs.flagSafe.clean
    rw [hu.settings]
    exact ⟨hu.kept _ _ ih.1, ih.2⟩
  | @move s s' p k hs hstep hrooted ih =>
    have hh := hs.flagSafe.wellFormed
    have hmax : s.heap.settings.promotionThreshold ≤ 3 := hh.settings.2.2.2.2.2
    obtain ⟨between, ha, hu⟩ := hstep.changesFlags hh hs.flagSafe.clean
    obtain ⟨hflags, hold⟩ := ha.moved p _ hrooted ih.1
    rw [hu.settings, ha.settings, hold, ih.2]
    have hpold : p.isOld = decide (s.heap.settings.promotionThreshold ≤ k) :=
      Bool.eq_iff_iff.2 (ih.2.trans decide_eq_true_iff.symm)
    rw [hpold, Flags.onward_ofAge hmax] at hflags
    refine ⟨hu.kept _ _ hflags, ?_⟩
    by_cases hk : s.heap.settings.promotionThreshold ≤ k
    · exact iff_of_true (Or.inl hk) (by omega)
    · rw [or_iff_right hk, Flags.due_ofAge_iff hmax (Nat.not_le.1 hk)]

/-- A root says where its cell has gone. -/
theorem HasSurvived.collect (h : s.HasSurvived p k) {report : CollectionSummary}
    (hc : s.collect = .ok (.ok report) s') {id : RootId} (hp : s.heap.purged.roots.get? id = some p)
    (hq : s'.heap.roots.get? id = some q) : s'.HasSurvived q (k + 1) := by
  obtain ⟨c, hcell, -⟩ := Heap.flags?_eq_some_iff.1 h.flags?.1
  obtain ⟨gone, -, hroots, -⟩ := transfers_newAddress hc
  rw [hroots, RootRegistry.get?_without, RootRegistry.get?_mapAddresses, hp] at hq
  split at hq
  · cases hq
  · cases hq
    exact h.move (.collect hc)
      (.start (RootRegistry.mem_addresses hp) (Heap.contains_iff.2 ⟨c, hcell⟩))

/-- **What flags tell about age**, as long as clients leave them alone.  The old cells are those that
    are promoted.  A cell that the roots reach whenever a collection succeeds is in the active young
    buffer, on the ofAge of the collections that it has survived, until these are as many as the
    threshold; from then on it is old, and its flags stay as they are. -/
theorem flags_tell_age (hs : s.FlagSafe) :
    (∀ p c, s.heap.get? p = some c → (c.flags.promoted = true ↔ p.isOld)) ∧
      ∀ p k, s.HasSurvived p k → ∃ c, s.heap.get? p = some c ∧
        (k < s.heap.settings.promotionThreshold →
          ¬ p.isOld ∧ p.space = s.heap.activeBuffer ∧ c.flags = .survivor k) ∧
        (s.heap.settings.promotionThreshold ≤ k →
          p.isOld ∧ c.flags =
            { Flags.survivor s.heap.settings.promotionThreshold with promoted := true }) := by
  refine ⟨fun p c hc => hs.promotedOld p _ (Heap.flags?_eq_some_iff.2 ⟨c, hc, rfl⟩), fun p k h => ?_⟩
  obtain ⟨hflags, hold⟩ := h.flags?
  obtain ⟨c, hc, hofAge⟩ := Heap.flags?_eq_some_iff.1 hflags
  refine ⟨c, hc, fun hk => ?_, fun hk => ⟨hold.2 hk, by rw [hofAge, Flags.ofAge, if_pos hk]⟩⟩
  have hyoung : ¬ p.isOld := fun hp => absurd (hold.1 hp) (Nat.not_le.2 hk)
  refine ⟨hyoung, ?_, by rw [hofAge, Flags.ofAge, if_neg (Nat.not_le.2 hk)]⟩
  by_contra hspace
  rw [Heap.get?_of_elsewhere _ hyoung hspace] at hc
  cases hc

/-- One young cell on which there is a root. -/
def cradle : Store where
  heap :=
    { settings := { youngCapacity := 4, oldCapacity := 4, oldHighWater := 4, promotionThreshold := 2 }
      active := #[.blank]
      roots := { entries := [(⟨0⟩, ⟨.young 0, 0⟩)], next := 1 } }

theorem hasSurvived_cradle : cradle.HasSurvived ⟨.young 0, 0⟩ 0 := by
  have hmake : Heap.make? cradle.heap.settings 0 = .ok (.make cradle.heap.settings 0) := rfl
  have hstart : FlagSafe { heap := .make cradle.heap.settings 0 } := .start {} #[] hmake
  have hcell : HasSurvived { cradle with heap := { cradle.heap with roots := .empty 0 } } _ 0 :=
    .allocate hstart (show allocate 1 _ = .ok (.ok ⟨.young 0, 0⟩) _ from rfl) rfl
      (List.mem_singleton_self _)
  exact hcell.stay (.roots (·.insert ⟨.young 0, 0⟩))

/-- Two collections make the cell old. -/
theorem flags_tell_age_cradle : ∃ (s : Store) (p : Address) (c : Cell), s.FlagSafe ∧ s.HasSurvived p 2 ∧
    s.heap.get? p = some c ∧ p.isOld ∧ c.flags = { survivedTwice := true, promoted := true } := by
  obtain ⟨_, s, hc, hcheck⟩ := exists_collect cradle (fun _ s => s.collectPasses fun _ s' =>
    decide (s.heap.purged.roots.get? ⟨0⟩ = some ⟨.young 1, 0⟩ ∧
      s.heap.roots.get? ⟨0⟩ = some ⟨.young 1, 0⟩ ∧
      s'.heap.roots.get? ⟨0⟩ = some ⟨.old, 0⟩ ∧ s'.heap.settings.promotionThreshold = 2)) (by cbv)
  obtain ⟨_, s', hc', hcheck⟩ := exists_collect s _ hcheck
  obtain ⟨hpurged, honce, htwice, hthreshold⟩ := of_decide_eq_true hcheck
  have hsurvived := (hasSurvived_cradle.collect hc (by decide) honce).collect hc' hpurged htwice
  obtain ⟨-, hages⟩ := flags_tell_age hsurvived.flagSafe
  obtain ⟨c, hcell, -, hold⟩ := hages _ _ hsurvived
  obtain ⟨hp, hflags⟩ := hold hthreshold.le
  rw [hthreshold] at hflags
  exact ⟨s', _, c, hsurvived.flagSafe, hsurvived, hcell, hp, hflags⟩

end Store

end Tenure
