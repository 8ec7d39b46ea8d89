/-
  Tenure — histories of clients that hold references.

  * `Holdings.Fresh`, `Holdings.Unmarked`: how a client starts; holdings without marks.
  * `Step.unmarked`: only what touches flags brings marks about.
  * `History.balanced`: over a whole history the counts are right and the accounts in order.
  * `counts_conserved`: what this comes to, with what collections and the end of a heap take
    from the counts.
-/
import Mathlib.Logic.Relation
import Tenure.Proofs.DiscardedCells
import Tenure.Proofs.HostileClients
import Tenure.Proofs.Holdings

namespace Tenure

namespace Store

variable {s s' : Store} {v : ValueId}

theorem GivesUp.clean (h : s.GivesUp s') (hs : s.heap.Clean) : s'.heap.Clean := by
  obtain ⟨_, hf⟩ := h.exists_mapRoots
  rw [hf]
  exact hs

theorem Swaps.clean {c d : Cell} (h : s.Swaps c s' d) (hs : s.heap.Clean) : s'.heap.Clean := by
  obtain ⟨_, hf⟩ := h.heap
  rw [hf]
  exact hs

theorem clean_write {p : Address} {half : Half} {payload : Slot} (hs : s.heap.Clean)
    (hw : s.write p half payload = .ok () s' ∨ ∃ fault, s.write p half payload = .error fault s') :
    s'.heap.Clean := by
  rcases write_ends hw with ⟨c, hc, rfl⟩ | rfl
  · have hput : (s.heap.put p (c.store half payload)).Clean :=
      hs.put p (by rw [Cell.isMarked_store, hs.isMarked hc])
    exact (givesUp_releaseSlot (s.mapHeap (·.put p (c.store half payload))) _).clean hput
  · exact (givesUp_releaseSlot s payload).clean hs

theorem clean_tidied (hs : s.heap.Clean) (h : s.Tidied s') : s'.heap.Clean := by
  obtain ⟨hheap, -⟩ | ⟨event, r, t, hc, hheap, -⟩ := h
  · exact hheap ▸ hs
  · obtain ⟨_, ht⟩ := exists_keepsDangling hc
    exact hheap ▸ ht.clean

theorem clean_allocate {count : Nat} {r : Except HeapError Address} (hs : s.heap.Clean)
    (h : s.allocate count = .ok r s') : s'.heap.Clean := by
  obtain ⟨t, htidied, ⟨_, -, rfl⟩ | ⟨heap, p, -, -, -, hg, rfl⟩⟩ := allocate_cases h
  · exact clean_tidied hs htidied
  · obtain ⟨first, -, hg⟩ := bind_eq_ok_iff.1 hg
    cases hg
    exact (clean_tidied hs htidied).grow count

theorem clean_allocateLinked {count : Nat} {r : Except HeapError Address} (hs : s.heap.Clean)
    (h : s.allocateLinked count = .ok r s') : s'.heap.Clean := by
  obtain ⟨r₀, t, ha, ⟨_, -, -, rfl⟩ | ⟨p, block, -, -, -, rfl⟩⟩ := allocateLinked_cases h
  · exact clean_allocate hs ha
  · exact (clean_allocate hs ha).link block

end Store

namespace Holdings

variable {o₀ o o' : Holdings} {x : Place} {c : Cell}

/-- A client that has just made its heap. -/
def Fresh (o : Holdings) : Prop :=
  ∃ settings registry heap, Heap.make? settings registry = .ok heap ∧ o = { store := { heap } }

/-- No cell is marked, be it in the heap or outside of it. -/
structure Unmarked (o : Holdings) : Prop where
  heap : o.store.heap.Clean
  cells : ∀ c ∈ o.cells, c.isMarked = false

/-! ## Marks -/

theorem Unmarked.isMarked (ho : o.Unmarked) (hx : o.get? x = some c) : c.isMarked = false := by
  cases x with
  | heap p => exact ho.heap.isMarked hx
  | outside i => exact ho.cells c (List.mem_of_getElem? hx)

theorem Unmarked.put (ho : o.Unmarked) (x : Place) (hc : c.isMarked = false) : (o.put x c).Unmarked := by
  cases x with
  | heap p => exact ⟨ho.heap.put p hc, ho.cells⟩
  | outside i =>
    refine ⟨ho.heap, fun d hd => ?_⟩
    rcases List.mem_or_eq_of_mem_set hd with hd | rfl
    · exact ho.cells d hd
    · exact hc

theorem Unmarked.append (ho : o.Unmarked) {s' : Store} {handles : List ValueId}
    (hs : s'.heap.Clean) (hc : c.isMarked = false) :
    Unmarked { store := s', cells := o.cells ++ [c], handles } := by
  refine ⟨hs, fun d hd => ?_⟩
  rcases List.mem_append.1 hd with hd | hd
  · exact ho.cells d hd
  · rw [List.mem_singleton.1 hd]
    exact hc

/-- **Marks come from clients that touch flags.** -/
theorem Step.unmarked (h : Step o o') (hb : o.Balanced) (ho : o.Unmarked) : o'.Unmarked := by
  have hwrite : ∀ {s' : Store} {handles : List ValueId}, s'.heap.Clean →
      Unmarked { o with store := s', handles } := fun hs => ⟨hs, ho.cells⟩
  cases h with
  | newValue value => exact hwrite ho.heap
  | retain hlive => exact hwrite ho.heap
  | release hp => exact hwrite ((Store.givesUp_release _ _).clean ho.heap)
  | newCell hp => exact ho.append ho.heap rfl
  | set half hx hp =>
    refine (hwrite ((Store.givesUp_releaseSlot _ _).clean ho.heap)).put _ ?_
    exact (Cell.isMarked_store _ _ _).trans (ho.isMarked hx)
  | @overwrite x c d half payload rest hx hp hd =>
    have hc := ho.isMarked hx
    have hkeeps : d.isMarked = false := by
      rw [← hd, Store.overwriteSlot]
      split
      · cases half <;> exact hc
      · exact hc
    refine (hwrite ?_).put _ hkeeps
    rw [Store.overwriteSlot]
    split
    · exact (Store.givesUp_releaseSlot _ _).clean ho.heap
    · exact (Store.givesUp_releaseSlot _ _).clean ho.heap
  | copySlot half half' hx hy =>
    have hswaps := hb.swaps_copySlot hx hy half half'
    refine (hwrite (hswaps.clean ho.heap)).put _ ?_
    rw [Store.copySlot_eq]
    exact (congrArg Flags.marked (Cell.flags_setSlot _ _ _)).trans (ho.isMarked hx)
  | copyCell hx hy hxy =>
    -- the flags are copied as well
    have hd := ho.isMarked hy
    exact (hwrite ((hb.swaps_copyCell hx hy hxy).clean ho.heap)).put _ hd
  | cloneCell hx =>
    refine ho.append ?_ (ho.isMarked hx)
    rw [(Store.cloneCell_spec fun v => hb.count v ▸ uses_le_total hx).1]
    exact ho.heap
  | @take x c hx =>
    have hput := ho.put x (c := .blank) rfl
    exact hput.append hput.heap (ho.isMarked hx)
  | exchange hx hy => exact (ho.put _ (ho.isMarked hy)).put _ (ho.isMarked hx)
  | @dropCell i c hi =>
    have hcar := (Store.givesUp_releaseSlot o.store c.car).clean ho.heap
    have hboth := (Store.givesUp_releaseSlot (o.store.releaseSlot c.car) c.cdr).clean hcar
    exact ⟨hboth, fun d hd => ho.cells d (List.mem_of_mem_eraseIdx hd)⟩
  | write hp hw => exact hwrite (Store.clean_write ho.heap hw)
  | allocate ha => exact hwrite (Store.clean_allocate ho.heap ha)
  | allocateLinked ha => exact hwrite (Store.clean_allocateLinked ho.heap ha)
  | collect hc =>
    obtain ⟨_, hs⟩ := Store.exists_keepsDangling hc
    exact hwrite hs.clean
  | clearMarks => exact hwrite (Heap.clean_clearMarks _)
  | roots f => exact hwrite ho.heap
  | renew => exact hwrite (Heap.clean_make _ _)

/-! ## Whole histories -/

/-- All that a client may have done in between. -/
def History : Holdings → Holdings → Prop :=
  Relation.ReflTransGen fun o o' => Step o o' ∨ Flagging o o'

theorem History.of_steps (h : Relation.ReflTransGen Step o o') : History o o' :=
  Relation.ReflTransGen.mono (fun _ _ => Or.inl) _ _ h

theorem Fresh.balanced (ho : o.Fresh) : o.Balanced := by
  obtain ⟨settings, registry, heap, hmake, rfl⟩ := ho
  have hwf := Heap.wellFormed_of_make? hmake
  obtain rfl := Heap.eq_make_of_make? hmake
  exact ⟨hwf, fun _ => rfl⟩

theorem Fresh.settled (ho : o.Fresh) : o.store.Settled := by
  obtain ⟨_, _, _, -, rfl⟩ := ho
  exact .refl _

theorem Fresh.unmarked (ho : o.Fresh) : o.Unmarked := by
  obtain ⟨settings, registry, heap, hmake, rfl⟩ := ho
  obtain rfl := Heap.eq_make_of_make? hmake
  exact ⟨Heap.clean_make _ _, fun _ hc => absurd hc List.not_mem_nil⟩

/-- **Over a whole history** the counts are right and the accounts in order. -/
theorem History.balanced (h : History o o') (ho : o.Balanced) :
    o'.Balanced ∧ o.store.Accounts o'.store := by
  induction h with
  | refl => exact ⟨ho, .refl _⟩
  | tail _ hstep ih =>
    obtain ⟨hb, ha⟩ := ih
    obtain ⟨hb', ha'⟩ := hstep.elim (·.balanced hb) (·.balanced hb)
    exact ⟨hb', ha.trans ha'⟩

theorem unmarked_of_steps (h : Relation.ReflTransGen Step o o') (hb : o.Balanced) (ho : o.Unmarked) :
    o'.Unmarked := by
  induction h with
  | refl => exact ho
  | tail hrun hstep ih => exact hstep.unmarked ((History.of_steps hrun).balanced hb).1 ih

theorem values_of_refused {s s' : Store} {error : HeapError}
    (hc : s.collect = .ok (.error error) s') : s'.values = s.values := by
  obtain ⟨-, c, -, ⟨_, -, -, -, hvalues⟩ | ⟨_, _, _, _, -, hr, -⟩⟩ := Store.collect_references hc
  · exact hvalues
  · cases hr

theorem Balanced.dropHeap (ho : o.Balanced) (hs : o.store.Settled) (v : ValueId) :
    o.store.dropHeap.values.count v = o.outside v ∧ o.store.dropHeap.Settled := by
  obtain ⟨haccounts, hcount⟩ := Store.dropHeap_spec o.store ho.wellFormed.idle
  refine ⟨?_, haccounts.settled hs⟩
  have htotal := ho.count v
  rw [hcount, htotal, total, Nat.add_sub_cancel_left]

/-- **References are counted right**, whatever a client has done since it made its heap, and values
    end when the last reference to them goes. -/
theorem counts_conserved (hfresh : o₀.Fresh) (hrun : History o₀ o) :
    (∀ v, o.store.values.count v =
      usesIn v o.store.heap.active.toList + usesIn v o.store.heap.old.toList + usesIn v o.cells +
        o.handles.count v) ∧
      -- the values whose ends are noted are those without references, and remain so
      o.store.Settled ∧ (∀ o', History o o' → o.store.Accounts o'.store) ∧
      -- a collection takes the references in the cells that it discards
      (∀ report s' v, o.store.collect = .ok (.ok report) s' →
        o.store.values.count v =
          s'.values.count v + o.store.heap.purged.held v o.store.heap.purged.lostYoung +
            if report.oldCollected then o.store.heap.purged.held v o.store.heap.purged.lostOld else 0) ∧
      (∀ error s', o.store.collect = .ok (.error error) s' → s'.values = o.store.values) ∧
      (Relation.ReflTransGen Step o₀ o →
        o.store.heap.purged.lostYoung = o.store.heap.purged.youngGarbage ∧
          o.store.heap.purged.lostOld = o.store.heap.purged.oldGarbage) ∧
      -- and so does the end of the heap
      ∀ v, o.store.dropHeap.values.count v = o.outside v ∧ o.store.dropHeap.Settled := by
  obtain ⟨hb, haccounts⟩ := hrun.balanced hfresh.balanced
  have hsettled := haccounts.settled hfresh.settled
  refine ⟨fun v => ?_, hsettled, fun o' h => (h.balanced hb).2, ?_, ?_, fun hsteps => ?_, ?_⟩
  · rw [hb.count, total, outside, Heap.uses]
    omega
  · exact fun _ _ v hc => Store.count_collect hb hc v
  · exact fun _ _ hc => values_of_refused hc
  · have hclean := (unmarked_of_steps hsteps hfresh.balanced hfresh.unmarked).heap
    exact Heap.Clean.lost_eq (h := o.store.heap.purged) hclean
  · exact hb.dropHeap hsettled

/-- A client that has just begun. -/
def starting : Holdings where
  store := { heap := .make .standard 0 }

/-- The same client when it has a port and two young cells. -/
def porter (roots : RootRegistry) (count : Nat) (active : Array Cell) (cells : List Cell)
    (handles : List ValueId) : Holdings where
  store :=
    { heap := { settings := .standard, active, roots }
      values := { entries := #[⟨.plain "port", count⟩] } }
  cells
  handles

/-- A root on the first cell. -/
def anchored : RootRegistry := { entries := [(⟨0⟩, ⟨.young 0, 0⟩)], next := 1 }

/-- A cell with the port. -/
def holder : Cell := { car := .value ⟨0⟩ }

/-- The port is in both cells of the heap and in one outside of it, and the client has a handle. -/
def littered : Holdings := porter anchored 4 #[holder, holder] [holder] [⟨0⟩]

theorem history_littered : History starting littered := by
  have hvalue : Step starting
      { store := (starting.store.newValue (.plain "port")).1, handles := [⟨0⟩] } := .newValue _ _
  have hblock : Step { store := (starting.store.newValue (.plain "port")).1, handles := [⟨0⟩] }
      (porter (.empty 0) 1 #[.blank, .blank] [] [⟨0⟩]) :=
    .allocate (show Store.allocate 2 _ = .ok (.ok ⟨.young 0, 0⟩) _ from rfl)
  have hroot : Step _ (porter anchored 1 #[.blank, .blank] [] [⟨0⟩]) :=
    .roots (porter (.empty 0) 1 #[.blank, .blank] [] [⟨0⟩]) (·.insert ⟨.young 0, 0⟩)
  have hhandle : Step _ (porter anchored 2 #[.blank, .blank] [] [⟨0⟩, ⟨0⟩]) :=
    .retain (o := porter anchored 1 #[.blank, .blank] [] [⟨0⟩]) (v := ⟨0⟩) (by decide)
  have hset : Step (porter anchored 2 #[.blank, .blank] [] [⟨0⟩, ⟨0⟩])
      (porter anchored 2 #[holder, .blank] [] [⟨0⟩]) :=
    .set (x := .heap ⟨.young 0, 0⟩) (c := .blank) .car rfl
      (show List.Perm _ ((Slot.value ⟨0⟩).value?.toList ++ [⟨0⟩]) from .refl _)
  have hclone : Step (porter anchored 2 #[holder, .blank] [] [⟨0⟩])
      (porter anchored 3 #[holder, .blank] [holder] [⟨0⟩]) :=
    .cloneCell (x := .heap ⟨.young 0, 0⟩) (c := holder) rfl
  have hcopy : Step (porter anchored 3 #[holder, .blank] [holder] [⟨0⟩]) littered :=
    .copyCell (x := .heap ⟨.young 0, 1⟩) (y := .outside 0) (c := .blank) (d := holder) rfl rfl
      (by decide)
  exact .of_steps (((((((Relation.ReflTransGen.single hvalue).tail hblock).tail hroot).tail
    hhandle).tail hset).tail hclone).tail hcopy)

/-- A collection discards the cell without a root, and the end of the heap leaves the references outside
    of it. -/
theorem counts_conserved_littered : starting.Fresh ∧ History starting littered ∧
    littered.store.values.count ⟨0⟩ = 4 ∧
      ∃ report s', littered.store.collect = .ok (.ok report) s' ∧ report.reclaimed = 1 ∧
        littered.store.heap.purged.held ⟨0⟩ littered.store.heap.purged.lostYoung = 1 ∧
          s'.values.count ⟨0⟩ = 3 ∧ s'.Settled ∧ s'.dropHeap.values.count ⟨0⟩ = 2 := by
  have hfresh : starting.Fresh := ⟨.standard, 0, _, rfl, rfl⟩
  obtain ⟨report, s', hc, hcheck⟩ := Store.exists_collect littered.store
    (fun report s' => report.reclaimed = 1 ∧ report.oldCollected = false ∧ s'.values.count ⟨0⟩ = 3)
    (by cbv)
  obtain ⟨hreclaimed, hold, hthree⟩ := of_decide_eq_true hcheck
  obtain ⟨hcount, -, -, hlost, -⟩ := counts_conserved hfresh history_littered
  have hfour : littered.store.values.count ⟨0⟩ = 4 := hcount ⟨0⟩
  have hloss := hlost report s' ⟨0⟩ hc
  rw [hfour, hthree, hold] at hloss
  obtain ⟨-, hsettled, -, -, -, -, hend⟩ :=
    counts_conserved hfresh (history_littered.tail (Or.inl (.collect hc)))
  refine ⟨hfresh, history_littered, hfour, report, s', hc, hreclaimed, ?_, hthree, hsettled,
    (hend ⟨0⟩).1⟩
  exact (Nat.add_left_cancel hloss).symm

end Holdings

end Tenure
