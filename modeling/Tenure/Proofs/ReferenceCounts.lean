/-
  Tenure — collections and allocations conserve references.

  A reference that a collection moves with its cell is neither retained nor released, and
  one in a discarded cell is released once.

  * `Heap.uses`: how many references to a value the cells of a heap hold.
  * `uses_put`, `uses_link`, `uses_move`: what writing, linking and moving cells does to it.
  * `Store.Balanced`: each count is the number of references in the heap and outside.
  * `Store.Conserves`: what leaves balanced stores balanced, with the accounts in order;
    `conserves_collect`, `conserves_allocate`, `conserves_allocateLinked`, `conserves_renew`:
    this does.
-/
import Tenure.Proofs.Requests
import Tenure.Proofs.ValueReferences

namespace Tenure

variable {v : ValueId}

namespace Heap

/-- How many references to a value the cells of the heap hold. -/
def uses (v : ValueId) (h : Heap) : Nat := usesIn v h.active.toList + usesIn v h.old.toList

variable {h h' : Heap} {p : Address} {c : Cell}

/-! ## Writing cells -/

theorem uses_put (hc : h.get? p = some c) (d : Cell) :
    (h.put p d).uses v + c.uses v = h.uses v + d.uses v := by
  have key : ∀ {cells : Array Cell}, cells[p.position]? = some c →
      usesIn v (cells.setIfInBounds p.position d).toList + c.uses v =
        usesIn v cells.toList + d.uses v := by
    intro cells hcell
    rw [Array.toList_setIfInBounds]
    exact usesIn_set (by rwa [Array.getElem?_toList]) d
  unfold get? at hc
  unfold put uses
  split at hc
  · split at hc
    · rename_i hs
      have := key hc
      simp only [hs, if_true]
      omega
    · cases hc
  · have := key hc
    simp only
    omega

theorem uses_get?_le (hc : h.get? p = some c) : c.uses v ≤ h.uses v := by
  have := uses_put (v := v) hc .blank
  rw [Cell.uses_blank] at this
  omega

/-- Cells without references to values are linked without any being lost. -/
theorem uses_link (block : List Address)
    (hfree : ∀ q ∈ block, ∀ c, h.get? q = some c → c.uses v = 0) :
    (h.link block).uses v = h.uses v := by
  fun_induction Heap.link h block with
  | case1 h p q rest ih =>
    cases hc : h.get? p with
    | none =>
      have hmodify : h.modify p (fun c => c.store .cdr (.ref q)) = h := by rw [modify, hc]
      rw [hmodify] at ih ⊢
      exact ih fun r hr => hfree r (List.mem_cons_of_mem _ hr)
    | some c =>
      have hmodify : h.modify p (fun c => c.store .cdr (.ref q)) =
          h.put p (c.store .cdr (.ref q)) := by
        rw [modify, hc]
      have hzero := hfree p List.mem_cons_self c hc
      have hput := uses_put (v := v) hc (c.store .cdr (.ref q))
      have hstore : (c.store .cdr (.ref q)).uses v = 0 := by
        have hs := c.uses_store (v := v) .cdr (.ref q)
        have href : (Slot.ref q).uses v = 0 := rfl
        omega
      rw [hmodify] at ih ⊢
      refine (ih fun r hr d hd => ?_).trans (by omega)
      by_cases hrp : r = p
      · subst hrp
        rw [get?_put_self hc] at hd
        cases hd
        exact hstore
      · rw [get?_put_of_ne hrp] at hd
        exact hfree r (List.mem_cons_of_mem _ hr) d hd
  | case2 h block => rfl

theorem uses_grow {count : Nat} (hg : h.grow count = .ok (h', p)) : h'.uses v = h.uses v := by
  obtain ⟨_, _, hg⟩ := bind_eq_ok_iff.1 hg
  cases hg
  have hblank : usesIn v (List.replicate count Cell.blank) = 0 := by simp [usesIn]
  simp only [uses, Array.toList_append, Array.toList_replicate, usesIn_append, hblank, Nat.add_zero]

/-! ## Marking and moving cells -/

@[simp] theorem uses_mapRoots (h : Heap) (f : RootRegistry → RootRegistry) :
    (h.mapRoots f).uses v = h.uses v := rfl

@[simp] theorem uses_clearMarks (h : Heap) : h.clearMarks.uses v = h.uses v := by
  have hmap := usesIn_map (v := v) (f := Cell.unmark) fun _ => rfl
  simp only [uses, clearMarks, Array.toList_map, hmap]

theorem uses_mark (h : Heap) : h.mark.heap.uses v = h.uses v := by
  rw [← uses_clearMarks, clearMarks_mark, uses_clearMarks]

theorem uses_prepared (h : Heap) : h.prepared.uses v = h.uses v :=
  h.purged.uses_mark

end Heap

/-- The cells that leave a buffer and those that are left behind make up all of its cells. -/
theorem Evacuation.uses_staying_add_leaving (threshold : Nat) (cells : List Cell) :
    usesIn v (staying threshold cells) + usesIn v (leaving threshold cells) +
      usesIn v (cells.filter fun c => !c.isMarked) = usesIn v cells := by
  have hsurvive : ∀ c : Cell, c.survive.uses v = c.uses v := fun _ => rfl
  have hpromote : ∀ c : Cell, c.survive.promote.uses v = c.uses v := fun _ => rfl
  rw [staying, leaving, usesIn_map hsurvive, usesIn_map hpromote]
  induction cells with
  | nil => rfl
  | cons c rest ih =>
    cases hm : c.isMarked <;> cases hd : c.isDue threshold <;> simp [hm, hd] <;> omega

namespace Heap

variable {h h' : Heap}

theorem uses_compacted (hrel : h.relocations = .empty) {compacting : Bool} {r : Compaction.Result}
    (hr : h.compacted compacting = .ok r) :
    usesIn v r.kept.toList + usesIn v r.dropped.toList = usesIn v h.old.toList := by
  cases compacting with
  | false =>
    cases hr
    simp
  | true =>
    have hc : Compaction.compact h.old h.relocations = .ok r := hr
    have hperm := (Compaction.compacted (fun p _ => hrel ▸ Relocation.not_contains_empty p) hc).perm
    have huses := usesIn_perm (v := v) hperm.toList
    rwa [Array.toList_append, usesIn_append] at huses

theorem uses_settle (e : Evacuation) :
    (h.settle e).uses v = usesIn v e.young.toList + usesIn v e.old.toList := by
  have hcell : ∀ c : Cell, (e.moves.updateCell c).uses v = c.uses v := fun c =>
    congrArg₂ (· + ·) (Slot.uses_mapRef _ _) (Slot.uses_mapRef _ _)
  have hold : ∀ c : Cell, (e.moves.updateCell c.unmark).uses v = c.uses v := fun c => hcell c.unmark
  simp only [uses, settle, Array.toList_map, usesIn_map hcell, usesIn_map hold]

/-- **Moving cells** moves the references in them; those in the discarded cells are left over. -/
theorem uses_move (hidle : h.idle = #[]) (hrel : h.relocations = .empty) {plan : CollectionPlan}
    {summary : ReachedCells} {report : CollectionSummary} {relocations : Nat}
    {oldGarbage youngGarbage : Array Cell}
    (hm : h.move plan summary =
      .ok (h', .finished report relocations oldGarbage youngGarbage)) :
    h'.uses v + usesIn v oldGarbage.toList + usesIn v youngGarbage.toList = h.uses v := by
  obtain ⟨r, e, hr, he, -, hh', ho⟩ := move_cases hm
  cases ho
  obtain ⟨hyoung, hold, hgarbage, -⟩ := Evacuation.run_buffers he
  have hsettle : h'.uses v = usesIn v e.young.toList + usesIn v e.old.toList := by
    rw [hh']
    exact uses_settle (h := h) e
  have hactive := Evacuation.uses_staying_add_leaving (v := v) h.settings.promotionThreshold
    h.active.toList
  have hcompacted := uses_compacted (v := v) hrel hr
  rw [hsettle, hyoung, hold, hgarbage, hidle]
  simp only [uses, Array.toList_append, usesIn_append, usesIn_nil] at hactive hcompacted ⊢
  omega

theorem uses_collect_abandoned {c : Collection} (hc : h.collect = .ok c) {error : HeapError}
    (ho : c.outcome = .abandoned error) : c.heap.uses v = h.uses v := by
  rw [heap_of_abandoned hc ho]
  exact (uses_clearMarks h.prepared).trans h.uses_prepared

theorem uses_collect_finished {c : Collection} (hc : h.collect = .ok c) {report : CollectionSummary}
    {relocations : Nat} {oldGarbage youngGarbage : Array Cell}
    (ho : c.outcome = .finished report relocations oldGarbage youngGarbage) :
    c.heap.uses v + usesIn v oldGarbage.toList + usesIn v youngGarbage.toList = h.uses v := by
  obtain ⟨hidle, heap, outcome, rfl, ⟨-, -, rfl⟩ | ⟨-, hm⟩⟩ := collect_cases hc
  · cases ho
  · cases ho
    rw [← h.uses_prepared]
    exact uses_move (by rw [idle_prepared, hidle]) rfl hm

end Heap

namespace Store

variable {s s' s'' : Store}

/-- Each count is the number of references that the cells of the heap hold, and of those outside. -/
structure Balanced (s : Store) (outside : ValueId → Nat) : Prop where
  wellFormed : s.heap.WellFormed
  count : ∀ v, s.values.count v = s.heap.uses v + outside v

theorem Balanced.congr {outside outside' : ValueId → Nat} (hs : s.Balanced outside)
    (h : ∀ v, outside v = outside' v) : s.Balanced outside' :=
  ⟨hs.wellFormed, fun v => (hs.count v).trans (by rw [h])⟩

/-- References are neither lost nor made up, and the accounts are in order afterwards. -/
def Conserves (s s' : Store) : Prop :=
  ∀ outside, s.Balanced outside → s'.Balanced outside ∧ s.Accounts s'

theorem Conserves.refl (s : Store) : s.Conserves s := fun _ hs => ⟨hs, .refl s⟩

theorem Conserves.trans (h : s.Conserves s') (h' : s'.Conserves s'') : s.Conserves s'' := by
  intro outside hs
  obtain ⟨hs', ha⟩ := h outside hs
  obtain ⟨hs'', ha'⟩ := h' outside hs'
  exact ⟨hs'', ha.trans ha'⟩

theorem conserves_log (s : Store) {event : Event} (he : event.isEnding = false) :
    s.Conserves (s.log event) :=
  fun _ hs => ⟨⟨hs.wellFormed, hs.count⟩, accounts_log s he⟩

theorem conserves_mapHeap {f : Heap → Heap} (hwf : s.heap.WellFormed → (f s.heap).WellFormed)
    (huses : ∀ v, (f s.heap).uses v = s.heap.uses v) : s.Conserves (s.mapHeap f) :=
  fun _ hs => ⟨⟨hwf hs.wellFormed, fun v => (hs.count v).trans (by rw [← huses]; rfl)⟩,
    accounts_mapHeap s f⟩

theorem uses_of_givesUp (h : s.GivesUp s') : s'.heap.uses v = s.heap.uses v := by
  obtain ⟨gone, hgone, -⟩ := h.heap
  rw [hgone, Heap.uses_mapRoots]

/-- A payload that is written brings its reference along.  Where there is no cell it is given up,
    else what the slot held. -/
theorem balanced_write {outside : ValueId → Nat} {p : Address} {half : Half} {payload : Slot}
    (hs : s.Balanced fun v => payload.uses v + outside v)
    (hw : s.write p half payload = .ok () s' ∨ ∃ fault, s.write p half payload = .error fault s') :
    s'.Balanced outside ∧ s.Accounts s' := by
  rcases write_ends hw with ⟨c, hc, hs'⟩ | hs'
  · have hgives := givesUp_releaseSlot (s.mapHeap (·.put p (c.store half payload))) (c.slot half)
    rw [← hs'] at hgives
    obtain ⟨gone, hgone, -⟩ := hgives.heap
    refine ⟨⟨?_, fun v => ?_⟩, ?_⟩
    · rw [hgone]
      exact (hs.wellFormed.put p _).mapRoots _
    · have hcount := hs.count v
      have hput := Heap.uses_put (v := v) hc (c.store half payload)
      have hstore := c.uses_store (v := v) half payload
      have hslot : (c.slot half).uses v ≤ c.uses v := c.uses_slot_le half
      have hle := Heap.uses_get?_le (v := v) hc
      have huses := uses_of_givesUp (v := v) hgives
      have hreleased : s'.values.count v = s.values.count v - (c.slot half).uses v := by
        rw [hs']
        exact count_releaseSlot _ _
      have hheap : (s.mapHeap (·.put p (c.store half payload))).heap.uses v =
          (s.heap.put p (c.store half payload)).uses v := rfl
      omega
    · rw [hs']
      exact (accounts_mapHeap s _).trans (accounts_releaseSlot _ _)
  · obtain ⟨gone, hgone, -⟩ := (givesUp_releaseSlot s payload).heap
    rw [hs']
    refine ⟨⟨?_, fun v => ?_⟩, accounts_releaseSlot s payload⟩
    · rw [hgone]
      exact hs.wellFormed.mapRoots _
    · have hcount := hs.count v
      rw [count_releaseSlot, hgone, Heap.uses_mapRoots]
      omega

/-! ## Collections -/

theorem accounts_logMarking (s : Store) (dangling : Array Address) (summary : ReachedCells)
    (roots : Nat) : s.Accounts (s.logMarking dangling summary roots) := by
  have hnotes : ∀ (ps : List Address) (s : Store),
      s.Accounts (ps.foldl (fun s p => s.log (.danglingIgnored p)) s) := by
    intro ps
    induction ps with
    | nil => exact .refl
    | cons p rest ih => exact fun s => (accounts_log s rfl).trans (ih _)
  rw [logMarking, ← Array.foldl_toList]
  exact (hnotes dangling.toList s).trans (accounts_log _ rfl)

theorem conserves_mark (s : Store) : s.Conserves s.mark.1 := by
  intro outside hs
  obtain ⟨hheap, hvalues⟩ := logMarking_eq { s with heap := s.heap.mark.heap } s.heap.mark.dangling
    s.heap.mark.summary s.heap.roots.size
  have hstart : s.Accounts { s with heap := s.heap.mark.heap } := .of_eq rfl rfl
  refine ⟨⟨?_, fun v => ?_⟩, hstart.trans (accounts_logMarking _ _ _ _)⟩
  · rw [show s.mark.1.heap = _ from hheap]
    exact hs.wellFormed.mark
  · rw [show s.mark.1.heap = _ from hheap, show s.mark.1.values = _ from hvalues, Heap.uses_mark]
    exact hs.count v

theorem accounts_logStart (s : Store) (c : Collection) : s.Accounts (s.logStart c) := by
  have hrest : ∀ s : Store, s.Accounts
      ((s.log .markPhase).logMarking c.dangling c.summary c.heap.roots.size) := fun s =>
    (accounts_log s rfl).trans (accounts_logMarking _ _ _ _)
  unfold logStart
  split
  · exact (accounts_log s rfl).trans (hrest _)
  · exact hrest s

/-- What the discarded cells hold is given up, that of old cells before the notes on the phases and
    that of young ones after them. -/
def discarding (s : Store) (oldGarbage : Array Cell) (relocations : Nat)
    (youngGarbage : Array Cell) : Store :=
  (((s.releaseCells oldGarbage).log .copyPhase).log (.fixupPhase relocations)).releaseCells youngGarbage

section Discarding

variable (s : Store) (oldGarbage : Array Cell) (relocations : Nat) (youngGarbage : Array Cell)

theorem accounts_discarding : s.Accounts (s.discarding oldGarbage relocations youngGarbage) :=
  (accounts_releaseCells s oldGarbage).trans <| (accounts_log _ rfl).trans <|
    (accounts_log _ rfl).trans (accounts_releaseCells _ youngGarbage)

theorem uses_discarding :
    (s.discarding oldGarbage relocations youngGarbage).heap.uses v = s.heap.uses v := by
  have hold : (s.releaseCells oldGarbage).heap.uses v = s.heap.uses v :=
    uses_of_givesUp (givesUp_releaseCells s oldGarbage)
  -- the notes leave the heap as it is
  exact (uses_of_givesUp (givesUp_releaseCells _ youngGarbage)).trans hold

theorem count_discarding :
    (s.discarding oldGarbage relocations youngGarbage).values.count v =
      s.values.count v - usesIn v oldGarbage.toList - usesIn v youngGarbage.toList := by
  rw [← count_releaseCells s]
  exact count_releaseCells _ youngGarbage

end Discarding

/-- What a collection does to the references: it gives up those in the discarded cells. -/
theorem collect_references {r : Except HeapError CollectionSummary} (hc : s.collect = .ok r s') :
    s.Accounts s' ∧ ∃ c, s.heap.collect = .ok c ∧
      ((∃ error, c.outcome = .abandoned error ∧ r = .error error ∧ s'.heap = c.heap ∧
          s'.values = s.values) ∨
        ∃ report relocations oldGarbage youngGarbage,
          c.outcome = .finished report relocations oldGarbage youngGarbage ∧ r = .ok report ∧
            (∀ v, s'.heap.uses v = c.heap.uses v) ∧
            ∀ v, s'.values.count v =
              s.values.count v - usesIn v oldGarbage.toList - usesIn v youngGarbage.toList) := by
  unfold collect at hc
  split at hc
  · cases hc
  rename_i c hheap
  obtain ⟨hstartHeap, hstartValues⟩ := logStart_eq { s with heap := c.heap } c
  have hheap' : s.Accounts { s with heap := c.heap } := .of_eq rfl rfl
  have hstart : s.Accounts ({ s with heap := c.heap }.logStart c) :=
    hheap'.trans (accounts_logStart _ c)
  simp only at hc
  split at hc
  · rename_i error ho
    cases hc
    exact ⟨hstart.trans (accounts_log _ rfl), c, hheap,
      Or.inl ⟨error, ho, rfl, hstartHeap, hstartValues⟩⟩
  · rename_i report relocations oldGarbage youngGarbage ho
    cases hc
    generalize hplan : (if c.plan.compacting = true then
      ({ s with heap := c.heap }.logStart c).log (.compacting c.plan.oldCells c.plan.liveOld)
      else { s with heap := c.heap }.logStart c) = t
    obtain ⟨haccounts, htheap, htvalues⟩ : s.Accounts t ∧ t.heap = c.heap ∧ t.values = s.values := by
      rw [← hplan]
      split
      · exact ⟨hstart.trans (accounts_log _ rfl), hstartHeap, hstartValues⟩
      · exact ⟨hstart, hstartHeap, hstartValues⟩
    have hdiscarding := haccounts.trans (accounts_discarding t oldGarbage relocations youngGarbage)
    have hpurged := hdiscarding.trans (accounts_mapHeap _ (·.mapRoots (·.purge.1)))
    refine ⟨hpurged.trans (accounts_log _ rfl), c, hheap,
      Or.inr ⟨report, relocations, oldGarbage, youngGarbage, ho, rfl, fun v => ?_, fun v => ?_⟩⟩
    · rw [← htheap]
      exact uses_discarding t oldGarbage relocations youngGarbage
    · rw [← htvalues]
      exact count_discarding t oldGarbage relocations youngGarbage

theorem conserves_collect {r : Except HeapError CollectionSummary} (hc : s.collect = .ok r s') :
    s.Conserves s' := by
  intro outside hs
  obtain ⟨haccounts, c, hheap, hends⟩ := collect_references hc
  refine ⟨⟨wellFormed_collect hs.wellFormed hc, fun v => ?_⟩, haccounts⟩
  rcases hends with ⟨error, ho, -, hs'heap, hs'values⟩ |
    ⟨report, relocations, oldGarbage, youngGarbage, ho, -, huses, hcount⟩
  · rw [hs'heap, hs'values, Heap.uses_collect_abandoned hheap ho, hs.count]
  · have hcollect := Heap.uses_collect_finished (v := v) hheap ho
    rw [hcount, huses, hs.count]
    omega

/-! ## Allocations -/

theorem conserves_makeRoom {count : Nat} {r : Except HeapError Unit} (h : s.makeRoom count = .ok r s') :
    s.Conserves s' := by
  unfold makeRoom at h
  obtain ⟨s₀, t, hget, h⟩ := Action.bind_eq_ok_iff.1 h
  cases hget
  split at h
  · cases h
    exact .refl s
  · obtain ⟨_, s₁, hlog, h⟩ := Action.bind_eq_ok_iff.1 h
    cases hlog
    obtain ⟨result, s₂, hc, h⟩ := Action.bind_eq_ok_iff.1 h
    have hcollect : s.Conserves s₂ := (conserves_log s rfl).trans (conserves_collect hc)
    cases result with
    | error error =>
      cases h
      exact hcollect
    | ok report =>
      obtain ⟨s₃, t, hget, h⟩ := Action.bind_eq_ok_iff.1 h
      cases hget
      simp only at h
      split at h
      · cases h
        exact hcollect
      · obtain ⟨_, s₃, hlog, h⟩ := Action.bind_eq_ok_iff.1 h
        cases hlog
        cases h
        exact hcollect.trans (conserves_log s₂ rfl)

theorem conserves_allocate {count : Nat} {r : Except HeapError Address}
    (h : s.allocate count = .ok r s') : s.Conserves s' := by
  unfold allocate at h
  obtain ⟨s₀, t, hget, h⟩ := Action.bind_eq_ok_iff.1 h
  cases hget
  split at h
  · cases h
    exact .refl s
  · obtain ⟨result, t, hroom, h⟩ := Action.bind_eq_ok_iff.1 h
    have ht := conserves_makeRoom hroom
    obtain ⟨-, hfits⟩ := makeRoom_cases hroom
    cases result with
    | error error =>
      cases h
      exact ht
    | ok _ =>
      obtain ⟨p, s₁, hgrow, h⟩ := Action.bind_eq_ok_iff.1 h
      cases h
      unfold grow at hgrow
      split at hgrow
      · rename_i heap p hg
        cases hgrow
        exact ht.trans (conserves_mapHeap (f := fun _ => heap) (fun hh => hh.grow (hfits rfl) hg)
          fun v => Heap.uses_grow hg)
      · cases hgrow

theorem conserves_allocateLinked {count : Nat} {r : Except HeapError Address}
    (h : s.allocateLinked count = .ok r s') : s.Conserves s' := by
  obtain ⟨r₀, t, ha, ⟨_, -, -, rfl⟩ | ⟨p, block, rfl, -, hb, rfl⟩⟩ := allocateLinked_cases h
  · exact conserves_allocate ha
  · refine (conserves_allocate ha).trans (conserves_mapHeap (fun hh => hh.link block) fun v => ?_)
    refine Heap.uses_link block fun q hq c hc => ?_
    rw [blank_of_allocate ha hb hq] at hc
    cases hc
    rfl

/-! ## The end of a heap -/

theorem dropHeap_spec (s : Store) (hidle : s.heap.idle = #[]) :
    s.Accounts s.dropHeap ∧
      ∀ v, s.dropHeap.values.count v = s.values.count v - s.heap.uses v := by
  have key : ∀ first second : Array Cell, s.Accounts
      (((s.releaseCells first).releaseCells second).releaseCells s.heap.old) ∧
        ∀ v, (((s.releaseCells first).releaseCells second).releaseCells s.heap.old).values.count v =
          s.values.count v - (usesIn v first.toList + usesIn v second.toList +
            usesIn v s.heap.old.toList) := by
    intro first second
    refine ⟨((accounts_releaseCells _ _).trans (accounts_releaseCells _ _)).trans
      (accounts_releaseCells _ _), fun v => ?_⟩
    rw [count_releaseCells, count_releaseCells, count_releaseCells]
    omega
  have hnone : ∀ v, usesIn v s.heap.idle.toList = 0 := fun v => by rw [hidle]; rfl
  unfold dropHeap
  cases s.heap.side with
  | first =>
    obtain ⟨haccounts, hcount⟩ := key s.heap.active s.heap.idle
    refine ⟨haccounts, fun v => (hcount v).trans ?_⟩
    rw [hnone, Nat.add_zero, Heap.uses]
  | second =>
    obtain ⟨haccounts, hcount⟩ := key s.heap.idle s.heap.active
    refine ⟨haccounts, fun v => (hcount v).trans ?_⟩
    rw [hnone, Nat.zero_add, Heap.uses]

theorem conserves_renew (s : Store) : s.Conserves s.renew := by
  intro outside hs
  obtain ⟨haccounts, hcount⟩ := dropHeap_spec s hs.wellFormed.idle
  refine ⟨⟨⟨hs.wellFormed.settings, Nat.zero_le _, Nat.zero_le _, rfl, rfl⟩, fun v => ?_⟩,
    haccounts.trans (.of_eq rfl rfl)⟩
  have hempty : s.renew.heap.uses v = 0 := rfl
  have hdrop : s.renew.values.count v = s.values.count v - s.heap.uses v := hcount v
  have := hs.count v
  omega

end Store

end Tenure
