/-
  Tenure — moving the cells of a marked heap.

  After the mark phase a collection compacts the old generation if it has to,
  empties the active young buffer and updates every address once.  All three
  together are a one-to-one map of addresses: where the cells are that were carried
  over, and to what each address in them has changed.

  * `Heap.carried`: what a collection carries over, and in what state.
  * `Heap.Moved`: what the map does to the heap.
  * `Heap.movesOf`: the moves that are recorded; `moved_of_move`: they are this map.
  * `sizes_move`, `exists_move`: the buffers afterwards, and that only a counter that runs
    over keeps cells from being moved.
-/
import Tenure.Heap.Collect
import Tenure.Proofs.Compaction
import Tenure.Proofs.Evacuation
import Tenure.Proofs.MarkPhase
import Tenure.Proofs.CounterPeaks

namespace Tenure

/-! ## What is carried over -/

@[simp] theorem Flags.marked_aged (f : Flags) : f.aged.marked = f.marked := by
  unfold aged
  split <;> rfl

@[simp] theorem Cell.isMarked_survive (c : Cell) : c.survive.isMarked = false := by
  simp [isMarked, survive, unmark]

theorem Cell.unmark_of_not_isMarked {c : Cell} (h : c.isMarked = false) : c.unmark = c := by
  rcases c with ⟨_, _, ⟨_, _, _, _⟩⟩
  simp_all [unmark, isMarked]

namespace Heap

/-- The old cells that a collection carries over: the marked ones, and all if it does not compact
    their buffer. -/
def carriedOld (h : Heap) (compacting : Bool) (p : Address) : Option Cell :=
  if compacting then Compaction.liveAt h.old p else Compaction.cellAt h.old p

/-- The cells of a marked heap that a collection carries over, as they are on the way. -/
def carried (h : Heap) (compacting : Bool) (p : Address) : Option Cell :=
  if p.isOld then h.carriedOld compacting p
  else ((h.get? p).filter (·.isMarked)).map (·.evacuated h.settings.promotionThreshold)

/-- The address map of a collection: it takes the cells that are carried over to the cells of the
    new heap, one to one, and every address in a cell or a root to its new one. -/
structure Moved (h : Heap) (compacting : Bool) (f : Address → Address) (h' : Heap) : Prop where
  bijOn : Set.BijOn f {p | (h.carried compacting p).isSome} {q | h'.contains q}
  cell : ∀ p c, h.carried compacting p = some c → h'.get? (f p) = some (c.unmark.mapRefs f)
  /-- Old cells stay old, and so become the young ones that are due. -/
  isOld : ∀ p c, h.get? p = some c → (h.carried compacting p).isSome →
    ((f p).isOld ↔ p.isOld ∨ c.isDue h.settings.promotionThreshold)
  fixed : ∀ p, ¬ h.contains p → f p = p
  clean : h'.Clean
  roots : h'.roots = h.roots.mapAddresses f

private theorem isSome_filter_iff {o : Option Cell} :
    (o.filter (·.isMarked)).isSome ↔ ∃ c, o = some c ∧ c.isMarked = true := by
  cases o with
  | none => simp
  | some c => cases hc : c.isMarked <;> simp [hc, Option.filter_some]

theorem get?_eq_cellAt (h : Heap) {p : Address} (hp : p.isOld) :
    h.get? p = Compaction.cellAt h.old p := by
  rw [get?, Compaction.cellAt, if_pos hp, Address.isOld_iff.1 hp]

/-- A collection carries over the marked cells, and the old ones if it leaves their buffer alone. -/
theorem carried_isSome_iff (h : Heap) {compacting : Bool} {p : Address} :
    (h.carried compacting p).isSome ↔
      h.Marks p ∨ (compacting = false ∧ p.isOld ∧ h.contains p) := by
  by_cases hp : p.isOld
  · cases compacting with
    | true =>
      have hlive : (Compaction.liveAt h.old p).isSome ↔ h.Marks p := by
        rw [Compaction.liveAt, ← get?_eq_cellAt h hp, isSome_filter_iff, Marks]
      simpa [carried, hp, carriedOld] using hlive
    | false =>
      have hread : h.carried false p = h.get? p := by
        rw [carried, if_pos hp, carriedOld, get?_eq_cellAt h hp]
        rfl
      rw [hread]
      refine ⟨fun hc => Or.inr ⟨rfl, hp, hc⟩, ?_⟩
      rintro (⟨c, hc, -⟩ | ⟨-, -, hc⟩)
      · exact Option.isSome_of_eq_some hc
      · exact hc
  · rw [carried, if_neg hp, Option.isSome_map, isSome_filter_iff, ← Marks]
    simp [hp]

/-- On the way a cell keeps what it holds. -/
theorem slots_carried {h : Heap} {compacting : Bool} {p : Address} {d : Cell}
    (hd : h.carried compacting p = some d) :
    ∃ c, h.get? p = some c ∧ d.car = c.car ∧ d.cdr = c.cdr := by
  by_cases hp : p.isOld
  · rw [carried, if_pos hp, carriedOld] at hd
    rw [get?_eq_cellAt h hp]
    split at hd
    · exact ⟨d, (Option.filter_eq_some_iff.1 hd).1, rfl, rfl⟩
    · exact ⟨d, hd, rfl, rfl⟩
  · rw [carried, if_neg hp] at hd
    obtain ⟨c, hc, rfl⟩ := Option.map_eq_some_iff.1 hd
    refine ⟨c, (Option.filter_eq_some_iff.1 hc).1, ?_⟩
    unfold Cell.evacuated
    split <;> exact ⟨rfl, rfl⟩

theorem get?_of_active (h : Heap) {p : Address} (hp : p.space = h.side.space) :
    h.get? p = h.active[p.position]? := by
  simp [get?, hp, Semispace.space]

theorem get?_of_elsewhere (h : Heap) {p : Address} (hp : ¬ p.isOld) (hs : p.space ≠ h.side.space) :
    h.get? p = none := by
  unfold get?
  split
  · rename_i s hps
    rw [if_neg]
    rintro rfl
    exact hs hps
  · rename_i hps
    exact absurd (Address.isOld_iff.2 hps) hp

/-- What is read after the addresses have been updated. -/
theorem get?_settle (h : Heap) (e : Evacuation) (q : Address) :
    (h.settle e).get? q =
      (e.get? h.side q).map fun c => e.moves.updateCell (if q.isOld then c.unmark else c) := by
  by_cases hq : q.isOld
  · have hs := Address.isOld_iff.1 hq
    simp [get?_eq_cellAt _ hq, Compaction.cellAt, Evacuation.get?, settle, hq, hs, Semispace.space]
  · by_cases hs : q.space = h.side.other.space
    · rw [get?_of_active _ (by exact hs)]
      simp [Evacuation.get?, settle, hq, hs]
    · rw [get?_of_elsewhere _ hq (by exact hs)]
      simp [Evacuation.get?, hs, Address.isOld_iff.not.1 hq]

/-! ## One move -/

/-- The old generation after the compaction, if there is one. -/
def compacted (h : Heap) (compacting : Bool) : Except Fault Compaction.Result :=
  if compacting then Compaction.compact h.old h.relocations else .ok ⟨h.old, #[], h.relocations⟩

/-- What is left to do when the old generation is ready to take cells. -/
def moveYoung (h : Heap) (plan : CollectionPlan) (summary : ReachedCells) (r : Compaction.Result) :
    Except Fault (Heap × CollectionOutcome) := do
  let e ← Evacuation.run h.settings.promotionThreshold h.side h.active.toList 0
    { young := h.idle, old := r.kept, moves := r.moves }
  let reclaimed ← Word.sub h.active.size summary.young
  let report : CollectionSummary :=
    { survivors := e.survivors, promoted := e.promoted, reclaimed,
      oldCollected := plan.compacting, oldReclaimed := r.dropped.size }
  match Counters.record report h.counters with
  | .error fault _ => .error fault
  | .ok () counters =>
    return ({ h.settle e with counters }, .finished report e.moves.size r.dropped e.garbage)

theorem move_eq (h : Heap) (plan : CollectionPlan) (summary : ReachedCells) :
    h.move plan summary = h.compacted plan.compacting >>= h.moveYoung plan summary := by
  obtain ⟨promoting, oldCells, compacting, liveOld⟩ := plan
  cases compacting <;> rfl

/-- The moves that a collection of a marked heap records: those of the compaction, and then those of
    the young cells. -/
def movesOf (h : Heap) (compacting : Bool) : Relocation :=
  match h.compacted compacting >>= fun r =>
      Evacuation.run h.settings.promotionThreshold h.side h.active.toList 0
        { young := h.idle, old := r.kept, moves := r.moves } with
  | .ok e => e.moves
  | .error _ => h.relocations

/-- What a report says, in terms of the marked heap. -/
def reportOf (h : Heap) (plan : CollectionPlan) (reclaimed oldReclaimed : Nat) : CollectionSummary :=
  let threshold := h.settings.promotionThreshold
  { survivors := (Evacuation.staying threshold h.active.toList).length
    promoted := (Evacuation.leaving threshold h.active.toList).length
    reclaimed, oldCollected := plan.compacting, oldReclaimed }

/-- What the report says is what has been moved. -/
theorem eq_reportOf {h : Heap} {plan : CollectionPlan} {r : Compaction.Result} {e : Evacuation}
    (he : Evacuation.run h.settings.promotionThreshold h.side h.active.toList 0
      { young := h.idle, old := r.kept, moves := r.moves } = .ok e) (reclaimed oldReclaimed : Nat) :
    (⟨e.survivors, e.promoted, reclaimed, plan.compacting, oldReclaimed⟩ : CollectionSummary) =
      h.reportOf plan reclaimed oldReclaimed := by
  obtain ⟨-, -, -, hsurvivors, hpromoted⟩ := Evacuation.run_buffers he
  simp [reportOf, hsurvivors, hpromoted]

theorem move_cases {h h' : Heap} {plan : CollectionPlan} {summary : ReachedCells}
    {outcome : CollectionOutcome} (hm : h.move plan summary = .ok (h', outcome)) :
    ∃ r e, h.compacted plan.compacting = .ok r ∧
      Evacuation.run h.settings.promotionThreshold h.side h.active.toList 0
        { young := h.idle, old := r.kept, moves := r.moves } = .ok e ∧
      summary.young ≤ h.active.size ∧
      let report := h.reportOf plan (h.active.size - summary.young) r.dropped.size
      h' = { h.settle e with counters := h.counters.recorded report } ∧
        outcome = .finished report e.moves.size r.dropped e.garbage := by
  rw [move_eq] at hm
  obtain ⟨r, hr, hm⟩ := bind_eq_ok_iff.1 hm
  obtain ⟨e, he, hm⟩ := bind_eq_ok_iff.1 hm
  obtain ⟨reclaimed, hrec, hm⟩ := bind_eq_ok_iff.1 hm
  have hsub := Word.sub_eq_ok_iff.1 hrec
  have hreclaimed : reclaimed = h.active.size - summary.young := by omega
  refine ⟨r, e, hr, he, by omega, ?_⟩
  rw [eq_reportOf he, hreclaimed] at hm
  simp only at hm
  rcases Counters.record_cases (h.reportOf plan (h.active.size - summary.young) r.dropped.size)
    h.counters with hc | ⟨-, c', hc⟩
  · rw [hc] at hm
    cases hm
    exact ⟨rfl, rfl⟩
  · rw [hc] at hm
    cases hm

theorem carriedOld_eq_none {h : Heap} {compacting : Bool} {p : Address} (hp : ¬ p.isOld) :
    h.carriedOld compacting p = none := by
  have hnone : Compaction.cellAt h.old p = none := by rw [Compaction.cellAt, if_neg hp]
  unfold carriedOld Compaction.liveAt
  rw [hnone]
  split <;> rfl

/-- What the compaction is to the rest of the collection. -/
theorem carries_compacted {h : Heap} (hrel : h.relocations = .empty) {compacting : Bool}
    {r : Compaction.Result} (hr : h.compacted compacting = .ok r) :
    Carries {p | (h.carriedOld compacting p).isSome} (h.carriedOld compacting) r.moves.resolve
      (Compaction.cellAt r.kept) := by
  cases compacting with
  | true =>
    have hc : Compaction.compact h.old h.relocations = .ok r := hr
    exact (Compaction.compacted (fun p _ => hrel ▸ Relocation.not_contains_empty p) hc).carries
  | false =>
    cases hr
    have hid : h.relocations.resolve = id := by
      funext p
      rw [hrel, Relocation.resolve_empty, id]
    rw [hid]
    exact .refl fun p => Iff.rfl

theorem not_contains_compacted {h : Heap} (hrel : h.relocations = .empty) {compacting : Bool}
    {r : Compaction.Result} (hr : h.compacted compacting = .ok r) {p : Address} (hp : ¬ p.isOld) :
    ¬ r.moves.contains p := by
  cases compacting with
  | true =>
    have hc : Compaction.compact h.old h.relocations = .ok r := hr
    rw [((Compaction.compacted (fun p _ => hrel ▸ Relocation.not_contains_empty p) hc).young p hp).1,
      hrel]
    exact Relocation.not_contains_empty p
  | false =>
    cases hr
    rw [hrel]
    exact Relocation.not_contains_empty p

/-- A compaction takes no address of its own buffer elsewhere, and leaves all other addresses. -/
theorem resolve_compacted {h : Heap} (hrel : h.relocations = .empty) {compacting : Bool}
    {r : Compaction.Result} (hr : h.compacted compacting = .ok r) {p : Address}
    (hp : ¬ h.contains p) : r.moves.resolve p = p := by
  cases compacting with
  | true =>
    have hc : Compaction.compact h.old h.relocations = .ok r := hr
    have hcompacted := Compaction.compacted (fun p _ => hrel ▸ Relocation.not_contains_empty p) hc
    by_cases hpold : p.isOld
    · refine Relocation.resolve_of_not_contains (hcompacted.outside p hpold ?_)
      rw [contains, get?_eq_cellAt h hpold, Compaction.cellAt, if_pos hpold] at hp
      simpa using hp
    · rw [(hcompacted.young p hpold).2, hrel, Relocation.resolve_empty]
  | false =>
    cases hr
    rw [hrel, Relocation.resolve_empty]

/-! ### Between the two halves -/

/-- Before the young cells leave their buffer, only old cells have been carried over. -/
theorem keptBefore_zero (h : Heap) (compacting : Bool) :
    Evacuation.keptBefore h.side (h.carried compacting) 0 =
      {p | (h.carriedOld compacting p).isSome} := by
  ext p
  by_cases hp : p.isOld
  · have hs := Address.isOld_iff.1 hp
    simp [Evacuation.keptBefore, carried, hp, hs, h.side.space_ne_old.symm]
  · by_cases hs : p.space = h.side.space
    · simp [Evacuation.keptBefore, hs, carriedOld_eq_none hp]
    · simp [Evacuation.keptBefore, carried, carriedOld_eq_none hp, hp, hs, get?_of_elsewhere h hp hs]

theorem keptBefore_size (h : Heap) (compacting : Bool) :
    Evacuation.keptBefore h.side (h.carried compacting) (0 + h.active.toList.length) =
      {p | (h.carried compacting p).isSome} := by
  ext p
  refine ⟨fun hp => hp.1, fun hp => ⟨hp, fun hs => ?_⟩⟩
  by_contra hlt
  have hnone : h.get? p = none := by
    rw [get?_of_active h hs, Array.getElem?_eq_none_iff]
    simpa using hlt
  have : (h.carried compacting p).isSome := hp
  rw [carried, if_neg (Address.not_isOld_of_young hs), hnone] at this
  cases this

theorem carries_start {h : Heap} (hidle : h.idle = #[]) (hrel : h.relocations = .empty)
    {compacting : Bool} {r : Compaction.Result} (hr : h.compacted compacting = .ok r) :
    Carries (Evacuation.keptBefore h.side (h.carried compacting) 0) (h.carried compacting)
      r.moves.resolve (Evacuation.get? h.side { young := h.idle, old := r.kept, moves := r.moves }) := by
  have hread : Evacuation.get? h.side { young := h.idle, old := r.kept, moves := r.moves } =
      Compaction.cellAt r.kept := by
    funext q
    by_cases hq : q.isOld
    · have hs := Address.isOld_iff.1 hq
      simp [Evacuation.get?, Compaction.cellAt, hq, hs, Semispace.space]
    · simp [Evacuation.get?, Compaction.cellAt, hq, hidle, Address.isOld_iff.not.1 hq]
  rw [keptBefore_zero, hread]
  refine (carries_compacted hrel hr).congr_source ?_
  intro p hp
  have hp' : p.isOld := by
    by_contra hno
    have : (h.carriedOld compacting p).isSome := hp
    rw [carriedOld_eq_none hno] at this
    cases this
  rw [carried, if_pos hp']

theorem expects_active (h : Heap) (compacting : Bool) :
    Evacuation.Expects h.settings.promotionThreshold h.side (h.carried compacting)
      h.active.toList 0 := by
  intro j c hj p hp hpos
  have hget : h.get? p = some c := by
    rw [get?_of_active h hp, hpos, Nat.zero_add]
    simpa using hj
  rw [carried, if_neg (Address.not_isOld_of_young hp), hget, Option.filter_some]
  split <;> rfl

/-! ### After both -/

theorem clean_settle (h : Heap) {e : Evacuation} (he : ∀ c ∈ e.young, c.isMarked = false) :
    (h.settle e).Clean := by
  constructor
  · intro c hc
    obtain ⟨d, hd, rfl⟩ := Array.mem_map.1 hc
    exact he d hd
  · intro c hc
    obtain ⟨d, -, rfl⟩ := Array.mem_map.1 hc
    rfl

theorem get?_settle_of_clean {h : Heap} {e : Evacuation} (hclean : (h.settle e).Clean) {q : Address}
    {c : Cell} (hc : e.get? h.side q = some c) :
    (h.settle e).get? q = some (c.unmark.mapRefs e.moves.resolve) := by
  have hget := get?_settle h e q
  rw [hc, Option.map_some] at hget
  have hmark := hclean.isMarked hget
  rw [hget]
  split at hmark
  · rename_i hq
    rw [if_pos hq]
    rfl
  · rename_i hq
    have hc' : c.isMarked = false := hmark
    rw [if_neg hq, Cell.unmark_of_not_isMarked hc']
    rfl

theorem names_active (h : Heap) {p : Address} {c : Cell} :
    Evacuation.Names h.side h.active.toList 0 p c ↔ p.space = h.side.space ∧ h.get? p = some c := by
  refine and_congr_right fun hp => ?_
  rw [get?_of_active h hp]
  simp

/-- Where the addresses lead in the end. -/
theorem resolve_moved {h : Heap} (hrel : h.relocations = .empty) {compacting : Bool}
    {r : Compaction.Result} (hr : h.compacted compacting = .ok r) {e : Evacuation}
    (he : Evacuation.run h.settings.promotionThreshold h.side h.active.toList 0
      { young := h.idle, old := r.kept, moves := r.moves } = .ok e) (p : Address) :
    (∀ c, h.get? p = some c → (h.carried compacting p).isSome →
        ((e.moves.resolve p).isOld ↔ p.isOld ∨ c.isDue h.settings.promotionThreshold)) ∧
      (¬ h.contains p → e.moves.resolve p = p) := by
  obtain ⟨hmoved, hstay⟩ := Evacuation.resolve_run he p
  constructor
  · intro c hc hkept
    by_cases hp : p.isOld
    · have hs : p.space ≠ h.side.space := fun hs => Address.not_isOld_of_young hs hp
      have hcell := (carries_compacted hrel hr).cell p (by rwa [carried, if_pos hp] at hkept)
      rw [hstay fun d hd => absurd ((names_active h).1 hd).1 hs]
      rw [carried, if_pos hp] at hkept
      rw [← hcell, Compaction.cellAt] at hkept
      simp only [hp, true_or, iff_true]
      by_contra hno
      rw [if_neg hno] at hkept
      cases hkept
    · have hs : p.space = h.side.space := by
        by_contra hs
        rw [get?_of_elsewhere h hp hs] at hc
        cases hc
      have hm : c.isMarked = true := by
        rw [carried, if_neg hp, hc, Option.isSome_map, isSome_filter_iff] at hkept
        obtain ⟨d, hd, hm⟩ := hkept
        cases hd
        exact hm
      rw [Address.isOld_iff, hmoved c ((names_active h).2 ⟨hs, hc⟩) hm, Evacuation.destination]
      split
      · rename_i hd
        simp [hd]
      · rename_i hd
        simpa [hd, hp] using h.side.other.space_ne_old
  · intro hfree
    rw [hstay fun c hc => ?_]
    · exact resolve_compacted hrel hr hfree
    · exact absurd (contains_iff.2 ⟨c, ((names_active h).1 hc).2⟩) hfree

/-- **The address map of a collection.** -/
theorem moved_of_move {h h' : Heap} (hidle : h.idle = #[]) (hrel : h.relocations = .empty)
    {plan : CollectionPlan} {summary : ReachedCells} {outcome : CollectionOutcome}
    (hm : h.move plan summary = .ok (h', outcome)) :
    h.Moved plan.compacting (h.movesOf plan.compacting).resolve h' := by
  obtain ⟨r, e, hr, he, -, rfl, -⟩ := move_cases hm
  have hmoves : h.movesOf plan.compacting = e.moves := by rw [movesOf, hr, ok_bind, he]
  have hcarries := Evacuation.carries_run he (expects_active h plan.compacting)
    (carries_start hidle hrel hr)
  rw [keptBefore_size] at hcarries
  have hclean : (h.settle e).Clean := by
    refine clean_settle h ?_
    intro c hc
    rw [(Evacuation.run_buffers he).1, hidle] at hc
    simp only [Array.empty_append, List.mem_toArray, Evacuation.staying, List.mem_map] at hc
    obtain ⟨d, -, rfl⟩ := hc
    exact d.isMarked_survive
  have hresolve := resolve_moved hrel hr he
  rw [hmoves]
  refine ⟨?_, ?_, fun p => (hresolve p).1, fun p => (hresolve p).2, hclean, rfl⟩
  · have hvalid : {q | (e.get? h.side q).isSome} = {q | (h.settle e).contains q} := by
      ext q
      show (e.get? h.side q).isSome ↔ (h.settle e).contains q
      rw [contains, get?_settle, Option.isSome_map]
    have hbij := hcarries.bijOn
    rwa [hvalid] at hbij
  · intro p c hp
    have hkept : p ∈ {p | (h.carried plan.compacting p).isSome} := Option.isSome_of_eq_some hp
    exact get?_settle_of_clean hclean ((hcarries.cell p hkept).trans hp)

/-! ## Sizes and faults -/

/-- The promotions that are planned for are those that come. -/
theorem promoting_plan (h : Heap) :
    h.plan.promoting =
      (Evacuation.leaving h.settings.promotionThreshold h.active.toList).length := by
  rw [Evacuation.leaving, List.length_map, ← List.countP_eq_length_filter, Array.countP_toList]
  rfl

/-- The old cells that are planned for are those that stay. -/
theorem size_compacted {h : Heap} (hrel : h.relocations = .empty) {r : Compaction.Result}
    (hr : h.compacted h.plan.compacting = .ok r) :
    r.kept.size = h.plan.liveOld ∧ r.kept.size + r.dropped.size = h.old.size := by
  have hlive : h.plan.liveOld =
      if h.plan.compacting then Compaction.markedCount h.old else h.old.size := rfl
  rw [hlive]
  split
  · rename_i hcompacting
    rw [hcompacting] at hr
    have hc : Compaction.compact h.old h.relocations = .ok r := hr
    exact (Compaction.compacted (fun p _ => hrel ▸ Relocation.not_contains_empty p) hc).size
  · rename_i hcompacting
    rw [Bool.not_eq_true] at hcompacting
    rw [hcompacting] at hr
    cases hr
    exact ⟨rfl, rfl⟩

/-- `h'` is `h` with its cells moved as planned, and with the totals that belong to that, were they to
    run over or not. -/
inductive Moves (h : Heap) (summary : ReachedCells) : Heap → Prop
  | intro {r : Compaction.Result} {e : Evacuation} : h.compacted h.plan.compacting = .ok r →
    Evacuation.run h.settings.promotionThreshold h.side h.active.toList 0
      { young := h.idle, old := r.kept, moves := r.moves } = .ok e →
    summary.young ≤ h.active.size →
      Moves h summary
        { h.settle e with
          counters := h.counters.recorded
            (h.reportOf h.plan (h.active.size - summary.young) r.dropped.size) }

theorem moves_of_move {h h' : Heap} {summary : ReachedCells} {outcome : CollectionOutcome}
    (hm : h.move h.plan summary = .ok (h', outcome)) : h.Moves summary h' := by
  obtain ⟨r, e, hr, he, hle, rfl, -⟩ := move_cases hm
  exact .intro hr he hle

/-- The buffers after the cells have been moved as planned. -/
theorem sizes_move {h h' : Heap} (hidle : h.idle = #[]) (hrel : h.relocations = .empty)
    {summary : ReachedCells} {outcome : CollectionOutcome}
    (hm : h.move h.plan summary = .ok (h', outcome)) :
    h'.active.size ≤ h.active.size ∧ h'.old.size = h.plan.liveOld + h.plan.promoting ∧
      h'.settings = h.settings ∧ h'.idle = #[] ∧ h'.relocations = .empty := by
  obtain ⟨r, e, hr, he, -, rfl, -⟩ := move_cases hm
  obtain ⟨hyoung, hold, -⟩ := Evacuation.run_buffers he
  refine ⟨?_, ?_, rfl, rfl, rfl⟩
  · have hstay := Evacuation.length_staying_add_leaving h.settings.promotionThreshold h.active.toList
    have hmarked := List.countP_le_length (p := (·.isMarked)) (l := h.active.toList)
    show (e.young.map e.moves.updateCell).size ≤ h.active.size
    rw [Array.size_map, hyoung, hidle]
    simp only [Array.empty_append, List.size_toArray]
    rw [Array.length_toList] at hmarked
    omega
  · show (e.old.map fun c => e.moves.updateCell c.unmark).size = _
    rw [Array.size_map, hold, Array.size_append, (size_compacted hrel hr).1, promoting_plan]
    rfl

/-- No total grows by more cells than a buffer has. -/
theorem most_reportOf_le {h : Heap} (hrel : h.relocations = .empty) {r : Compaction.Result}
    (hr : h.compacted h.plan.compacting = .ok r) {reclaimed : Nat}
    (hreclaimed : reclaimed ≤ h.active.size) :
    (h.reportOf h.plan reclaimed r.dropped.size).most ≤ max 1 (max h.active.size h.old.size) := by
  have hstay := Evacuation.length_staying_add_leaving h.settings.promotionThreshold h.active.toList
  have hmarked := List.countP_le_length (p := (·.isMarked)) (l := h.active.toList)
  obtain ⟨-, hdropped⟩ := size_compacted hrel hr
  rw [Array.length_toList] at hmarked
  simp only [reportOf, CollectionSummary.most_le_iff]
  omega

/-- **Cells can be moved** as planned where their buffers are not too large and the old generation
    has room for what it is to take.  What may still happen is that a counter would run over. -/
theorem exists_move {h : Heap} (hidle : h.idle = #[]) (hrel : h.relocations = .empty)
    (hyoung : h.active.size ≤ Address.limit) (hold : h.old.size ≤ Address.limit)
    (hroom : h.plan.liveOld + h.plan.promoting ≤ Address.limit) {summary : ReachedCells}
    (hsummary : summary.young ≤ h.active.size) :
    ∃ h', h.Moves summary h' ∧ ((∃ outcome, h.move h.plan summary = .ok (h', outcome)) ∨
      (Word.limit ≤ h'.counters.peak ∧ h.move h.plan summary = .error .additionOverflow)) := by
  have hfresh : ∀ p, ¬ h.relocations.contains p := fun p => hrel ▸ Relocation.not_contains_empty p
  obtain ⟨r, hr⟩ : ∃ r, h.compacted h.plan.compacting = .ok r := by
    cases hc : h.plan.compacting with
    | true => exact Compaction.exists_compact (fun p _ => hfresh p) hold
    | false => exact ⟨_, rfl⟩
  have hstay := Evacuation.length_staying_add_leaving h.settings.promotionThreshold h.active.toList
  have hmarked := List.countP_le_length (p := (·.isMarked)) (l := h.active.toList)
  have hkept := (size_compacted hrel hr).1
  have hleave := promoting_plan h
  rw [Array.length_toList] at hmarked
  obtain ⟨e, he⟩ : ∃ e, Evacuation.run h.settings.promotionThreshold h.side h.active.toList 0
      { young := h.idle, old := r.kept, moves := r.moves } = .ok e := by
    refine Evacuation.exists_run ?_ ?_ ?_ fun p hp _ =>
      not_contains_compacted hrel hr (Address.not_isOld_of_young hp)
    · rw [Array.length_toList]
      omega
    · rw [hidle]
      show 0 + _ ≤ _
      omega
    · show r.kept.size + _ ≤ _
      omega
  have hsub : Word.sub h.active.size summary.young = .ok (h.active.size - summary.young) :=
    Word.sub_eq_ok_iff.2 (by omega)
  refine ⟨_, .intro hr he hsummary, ?_⟩
  rw [move_eq, hr, ok_bind, moveYoung, he, ok_bind, hsub, ok_bind]
  rw [eq_reportOf he]
  simp only
  rcases Counters.record_cases _ h.counters with hc | ⟨hlimit, c', hc⟩
  · rw [hc]
    exact Or.inl ⟨_, rfl⟩
  · rw [hc]
    exact Or.inr ⟨hlimit, rfl⟩

end Heap

end Tenure
