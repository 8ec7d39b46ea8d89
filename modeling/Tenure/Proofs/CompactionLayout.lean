/-
  Tenure — where a compaction puts the cells.

  Marked cells that lie low enough stay in their places, and those that lie above the number of
  marked cells change places with cells without a mark, each with one of its own.  So the moves
  are as few as can be, and they are all that the table of moves gains.

  * `Passes.inside`: the walk looks at no index outside of the buffer.
  * `Shifts`: what the moves are while the walk goes on; `Passes.shifts`: every state that it comes
    through keeps this.
  * `Packed`: the result, place by place; `compact_exact`: a compaction comes to it.
-/
import Tenure.Proofs.Compaction

namespace Tenure

theorem Relocation.size_store {r : Relocation} {source : Address} (h : ¬ r.contains source)
    (target : Address) : (r.store source target).size = r.size + 1 := by
  have hfresh : source ∉ r.moves := h
  rw [size, store, Std.HashMap.size_insert, if_neg hfresh, size]

namespace Compaction

variable {cells now : Array Cell} {moves₀ moves : Relocation} {bottom top : Nat}

/-- How many cells from an index on are marked. -/
def markedFrom (cells : Array Cell) (index : Nat) : Nat :=
  (cells.toList.drop index).countP (·.isMarked)

theorem markedFrom_size (cells : Array Cell) : markedFrom cells cells.size = 0 := by
  rw [markedFrom, List.drop_of_length_le (Nat.le_of_eq Array.length_toList), List.countP_nil]

theorem markedFrom_pred {i : Nat} (hi : 0 < i) (hle : i ≤ cells.size) :
    markedFrom cells (i - 1) = markedFrom cells i + (if isLive cells (i - 1) then 1 else 0) := by
  have hlt : i - 1 < cells.toList.length := by
    rw [Array.length_toList]
    omega
  have hcell : cells[i - 1]? = some cells.toList[i - 1] := by
    rw [← Array.getElem?_toList, List.getElem?_eq_getElem hlt]
  have hlive : isLive cells (i - 1) = cells.toList[i - 1].isMarked := by
    rw [isLive, hcell, Option.any_some]
  rw [markedFrom, List.drop_eq_getElem_cons hlt, List.countP_cons, hlive,
    show i - 1 + 1 = i by omega, markedFrom]

/-! ## The walk -/

/-- From each of these states on the walk goes on as from the start. -/
theorem Passes.squeeze_eq (hfresh : ∀ p, p.isOld → ¬ moves₀.contains p)
    (h : Passes cells moves₀ now moves bottom top) :
    squeeze now moves bottom top = squeeze cells moves₀ 0 cells.size := by
  induction h with
  | start => rfl
  | lower _ hlt hdead ih => rw [← ih, eq_comm, squeeze, if_neg (by omega), if_pos (by simp [hdead])]
  | raise _ hlt hlive' hlive ih =>
    rw [← ih, eq_comm, squeeze, if_neg (by omega), if_neg (by simp [hlive']), if_pos hlive]
  | @swap now moves bottom top source target hp hlt hlive hdead hs ht ih =>
    obtain ⟨hold, hpos⟩ := Address.old_eq_ok_iff.1 hs
    have hin := (hp.between hfresh).inside
    have hnew : ¬ moves.contains source := (hp.between hfresh).unmoved source hold (by omega)
    have hr : Relocation.record source target moves = .ok () (moves.store source target) :=
      Relocation.record_eq_ok_iff.2 ⟨hnew, rfl⟩
    rw [← ih, eq_comm, squeeze, if_neg (by omega), if_neg (by simp [hlive]), if_neg (by simp [hdead]),
      hs, ht, ok_bind, ok_bind, hr]

/-- **Wherever the walk looks there is a cell.** -/
theorem Passes.inside (hfresh : ∀ p, p.isOld → ¬ moves₀.contains p)
    (h : Passes cells moves₀ now moves bottom top) (hlt : bottom < top) :
    bottom < now.size ∧ top - 1 < now.size := by
  have := (h.between hfresh).inside
  omega

/-- The moves while the walk goes on: just the marked cells from the upper cursor on have moved, and
    they have gone to places where there was no marked cell. -/
structure Shifts (cells : Array Cell) (moves₀ : Relocation) (now : Array Cell)
    (moves : Relocation) (top : Nat) : Prop where
  stays : ∀ i < top, isLive cells i = true → now[i]? = cells[i]?
  moved : ∀ p, p.isOld → (moves.contains p ↔ top ≤ p.position ∧ isLive cells p.position = true)
  vacant : ∀ p, p.isOld → moves.contains p → isLive cells (moves.resolve p).position = false
  named : ∀ i, top ≤ i → isLive cells i = true → i < Address.limit
  size : moves.size = moves₀.size + markedFrom cells top

namespace Shifts

theorem start (hfresh : ∀ p, p.isOld → ¬ moves₀.contains p) :
    Shifts cells moves₀ cells moves₀ cells.size where
  stays _ _ _ := rfl
  moved p hp := by
    refine iff_of_false (hfresh p hp) fun ⟨hle, hlive⟩ => ?_
    rw [isLive, Array.getElem?_eq_none hle] at hlive
    cases hlive
  vacant p hp hc := absurd hc (hfresh p hp)
  named i hle hlive := by
    rw [isLive, Array.getElem?_eq_none hle] at hlive
    cases hlive
  size := by rw [markedFrom_size, Nat.add_zero]

/-- Below the upper cursor, what is not marked now was not marked before. -/
theorem dead (h : Shifts cells moves₀ now moves top) {i : Nat} (hi : i < top)
    (hdead : isLive now i = false) : isLive cells i = false := by
  by_contra hlive
  rw [Bool.not_eq_false] at hlive
  rw [isLive, h.stays i hi hlive, ← isLive, hlive] at hdead
  cases hdead

theorem lower (h : Shifts cells moves₀ now moves top) (hb : Between cells moves₀ now moves bottom top)
    (hlt : bottom < top) (hdead : isLive now (top - 1) = false) :
    Shifts cells moves₀ now moves (top - 1) := by
  have hcell := h.dead (i := top - 1) (by omega) hdead
  have hne : ∀ {i}, isLive cells i = true → i ≠ top - 1 := by
    rintro i hlive rfl
    rw [hcell] at hlive
    cases hlive
  refine ⟨fun i hi => h.stays i (by omega), fun p hp => ?_, h.vacant, fun i hi hlive => ?_, ?_⟩
  · rw [h.moved p hp]
    refine and_congr_left fun hlive => ?_
    have := hne hlive
    omega
  · have := hne hlive
    exact h.named i (by omega) hlive
  · have hsize := hb.perm.size_eq
    have hin := hb.inside
    rw [h.size, markedFrom_pred (by omega) (by omega), hcell]
    rfl

theorem swap (h : Shifts cells moves₀ now moves top) (hb : Between cells moves₀ now moves bottom top)
    (hlt : bottom < top) (hlive : isLive now (top - 1) = true) (hdead : isLive now bottom = false)
    {source target : Address} (hs : Address.old (top - 1) = .ok source)
    (ht : Address.old bottom = .ok target) :
    Shifts cells moves₀ (now.swapIfInBounds bottom (top - 1)) (moves.store source target)
      (top - 1) := by
  obtain ⟨hsold, hspos⟩ := Address.old_eq_ok_iff.1 hs
  obtain ⟨htold, htpos⟩ := Address.old_eq_ok_iff.1 ht
  have hin := hb.inside
  have hsize := hb.perm.size_eq
  have hne : bottom ≠ top - 1 := fun he => by rw [he, hlive] at hdead; cases hdead
  have hbottom := h.dead hlt hdead
  have htop : isLive cells (top - 1) = true := by
    rw [← hlive, isLive, isLive, hb.middle (top - 1) (by omega) (by omega)]
  have hfresh : ¬ moves.contains source := hb.unmoved source hsold (by omega)
  refine ⟨fun i hi hilive => ?_, fun p hp => ?_, fun p hp hc => ?_, fun i hi hilive => ?_, ?_⟩
  · -- the cell at the lower cursor was not marked, so it is none of those that have to stay
    have hib : i ≠ bottom := by
      rintro rfl
      rw [hbottom] at hilive
      cases hilive
    rw [getElem?_exchange (by omega) (by omega), if_neg (by omega), if_neg hib]
    exact h.stays i (by omega) hilive
  · rw [Relocation.contains_store, h.moved p hp]
    constructor
    · rintro (rfl | ⟨hle, hplive⟩)
      · rw [hspos]
        exact ⟨Nat.le_refl _, htop⟩
      · exact ⟨by omega, hplive⟩
    · rintro ⟨hle, hplive⟩
      by_cases hpos : p.position = top - 1
      · exact Or.inl (Address.eq_of_old hsold hp (hspos.trans hpos.symm))
      · exact Or.inr ⟨by omega, hplive⟩
  · rw [Relocation.resolve_store]
    split
    · rw [htpos]
      exact hbottom
    · rename_i hps
      exact h.vacant p hp (((Relocation.contains_store _ _ _ _).1 hc).resolve_left hps)
  · by_cases hit : i = top - 1
    · rw [hit, ← hspos]
      exact source.position_lt
    · exact h.named i (by omega) hilive
  · rw [Relocation.size_store hfresh, h.size, markedFrom_pred (by omega) (by omega), htop, if_pos rfl,
      Nat.add_assoc]

end Shifts

/-- **The moves of the walk**, in every state that it comes through. -/
theorem Passes.shifts (hfresh : ∀ p, p.isOld → ¬ moves₀.contains p)
    (h : Passes cells moves₀ now moves bottom top) : Shifts cells moves₀ now moves top := by
  induction h with
  | start => exact .start hfresh
  | lower hp hlt hdead ih => exact ih.lower (hp.between hfresh) hlt hdead
  | raise _ _ _ _ ih => exact ih
  | swap hp hlt hlive hdead hs ht ih => exact ih.swap (hp.between hfresh) hlt hlive hdead hs ht

/-! ## The result -/

namespace Compacted

variable {r : Result}

/-- No marked cell is lost and none is there twice. -/
theorem kept_perm (h : Compacted cells moves₀ r) : r.kept.Perm (cells.filter (·.isMarked)) := by
  have hlive : r.kept.toList.filter (·.isMarked) = r.kept.toList :=
    List.filter_eq_self.2 fun c hc => h.live c (Array.mem_toList_iff.1 hc)
  have hdead : r.dropped.toList.filter (·.isMarked) = [] :=
    List.filter_eq_nil_iff.2 fun c hc => by simp [h.dead c (Array.mem_toList_iff.1 hc)]
  have hperm := h.perm.toList.filter (·.isMarked)
  rw [Array.toList_append, List.filter_append, hlive, hdead, List.append_nil] at hperm
  rw [Array.perm_iff_toList_perm, Array.toList_filter]
  exact hperm

theorem size_dropped (h : Compacted cells moves₀ r) :
    r.dropped.size = cells.countP (!·.isMarked) := by
  have hcount := @Array.size_eq_countP_add_countP Cell (·.isMarked) cells
  have hsize := h.size
  rw [markedCount] at hsize
  simp only [Bool.not_eq_true, Bool.decide_eq_false] at hcount
  omega

/-- Where the moves lead from a marked cell, there it is. -/
theorem found (h : Compacted cells moves₀ r) {p : Address} (hp : p.isOld)
    (hlive : isLive cells p.position = true) :
    (r.moves.resolve p).isOld ∧ r.kept[(r.moves.resolve p).position]? = cells[p.position]? := by
  have hmem : (liveAt cells p).isSome := liveAt_isSome_iff.2 ⟨hp, hlive⟩
  obtain ⟨c, hc⟩ := Option.isSome_iff_exists.1 hmem
  have hcell := h.carries.cell p hmem
  rw [hc, cellAt] at hcell
  split at hcell
  · rename_i hold
    exact ⟨hold, hcell.trans (liveAt_eq_some_iff.1 hc).2.1.symm⟩
  · cases hcell

end Compacted

/-- A buffer that has been compacted.  The marked cells are left, with what they held.  Those below
    their own number are where they were, and the others have gone to places below that number
    where there was no marked cell.  Just these moves have been entered. -/
structure Packed (cells : Array Cell) (moves₀ : Relocation) (r : Result) : Prop where
  kept : r.kept.Perm (cells.filter (·.isMarked))
  size : r.kept.size = markedCount cells
  dropped : r.dropped.size = cells.countP (!·.isMarked)
  stays : ∀ i < markedCount cells, isLive cells i = true → r.kept[i]? = cells[i]?
  fixed : ∀ p, p.isOld → p.position < markedCount cells → r.moves.resolve p = p
  moves : ∀ p, p.isOld → isLive cells p.position = true → markedCount cells ≤ p.position →
    (r.moves.resolve p).position < markedCount cells ∧
      isLive cells (r.moves.resolve p).position = false
  found : ∀ p, p.isOld → isLive cells p.position = true →
    (r.moves.resolve p).isOld ∧ r.kept[(r.moves.resolve p).position]? = cells[p.position]?
  distinct : Set.InjOn r.moves.resolve {p | p.isOld ∧ isLive cells p.position = true}
  entries : ∀ p, p.isOld →
    (r.moves.contains p ↔ markedCount cells ≤ p.position ∧ isLive cells p.position = true)
  /-- Every marked cell that has to move has an address. -/
  named : ∀ i, markedCount cells ≤ i → isLive cells i = true → i < Address.limit
  entered : r.moves.size = moves₀.size + markedFrom cells (markedCount cells)
  young : ∀ p, ¬ p.isOld →
    (r.moves.contains p = moves₀.contains p ∧ r.moves.resolve p = moves₀.resolve p)

/-- The cursors meet behind the marked cells, and by then the moves are those of the walk. -/
theorem shifts_compact (hfresh : ∀ p, p.isOld → ¬ moves.contains p) {r : Result}
    (hr : compact cells moves = .ok r) : ∃ now, Shifts cells moves now r.moves (markedCount cells) ∧
      ∀ i < markedCount cells, r.kept[i]? = now[i]? := by
  obtain ⟨hsize, -⟩ := (compacted hfresh hr).size
  obtain ⟨s, hs, he⟩ := bind_eq_ok_iff.1 hr
  cases he
  have hpasses := passes_squeeze .start (Nat.zero_le _) hs
  have hin := (hpasses.between hfresh).inside
  have hmeeting : s.meeting = markedCount cells := by
    rw [← hsize, Array.take_eq_extract, Array.size_extract]
    omega
  refine ⟨s.cells, hmeeting ▸ hpasses.shifts hfresh, fun i hi => ?_⟩
  rw [Array.take_eq_extract, Array.getElem?_extract]
  simp; omega

theorem packed (hfresh : ∀ p, p.isOld → ¬ moves.contains p) {r : Result}
    (hr : compact cells moves = .ok r) : Packed cells moves r := by
  have hcompacted := compacted hfresh hr
  have hsize := hcompacted.size.1
  obtain ⟨now, hshifts, hkept⟩ := shifts_compact hfresh hr
  refine
    { kept := hcompacted.kept_perm
      size := hsize
      dropped := hcompacted.size_dropped
      stays := fun i hi hlive => (hkept i hi).trans (hshifts.stays i hi hlive)
      fixed := fun p hp hpos => ?_
      moves := fun p hp hlive hle => ⟨?_, ?_⟩
      found := fun p hp hlive => hcompacted.found hp hlive
      distinct := fun p hp q hq hpq => ?_
      entries := hshifts.moved
      named := hshifts.named
      entered := hshifts.size
      young := hcompacted.young }
  · exact Relocation.resolve_of_not_contains fun hc =>
      absurd ((hshifts.moved p hp).1 hc).1 (Nat.not_le.2 hpos)
  · obtain ⟨-, hcell⟩ := hcompacted.found hp hlive
    obtain ⟨c, hc, -⟩ := isLive_iff.1 hlive
    obtain ⟨hlt, -⟩ := Array.getElem?_eq_some_iff.1 (hcell.trans hc)
    rwa [hsize] at hlt
  · exact hshifts.vacant p hp ((hshifts.moved p hp).2 ⟨hle, hlive⟩)
  · exact hcompacted.carries.injective (liveAt_isSome_iff.2 hp) (liveAt_isSome_iff.2 hq) hpq

/-- Where every cell is marked, nothing moves and nothing is dropped. -/
theorem compact_of_marked {r : Result} (hall : ∀ c ∈ cells, c.isMarked = true)
    (hr : compact cells .empty = .ok r) :
    r.kept = cells ∧ r.dropped = #[] ∧ ∀ p, r.moves.resolve p = p := by
  have hpacked := packed (fun p _ => Relocation.not_contains_empty p) hr
  have hcount : markedCount cells = cells.size := Array.countP_eq_size.2 hall
  have hsize : r.kept.size = cells.size := hpacked.size.trans hcount
  refine ⟨Array.ext_getElem? fun i => ?_, Array.eq_empty_of_size_eq_zero ?_, fun p => ?_⟩
  · by_cases hi : i < cells.size
    · refine hpacked.stays i (by omega) ?_
      rw [isLive, Array.getElem?_eq_getElem hi]
      exact hall _ (Array.getElem_mem hi)
    · rw [Array.getElem?_eq_none (by omega), Array.getElem?_eq_none (by omega)]
  · rw [hpacked.dropped, Array.countP_eq_zero]
    intro c hc
    simp [hall c hc]
  · refine Relocation.resolve_of_not_contains ?_
    by_cases hp : p.isOld
    · rw [hpacked.entries p hp]
      rintro ⟨hle, hlive⟩
      rw [isLive, Array.getElem?_eq_none (by omega)] at hlive
      cases hlive
    · rw [(hpacked.young p hp).1]
      exact Relocation.not_contains_empty p

/-- **What a compaction does**, to a buffer with any marks and a table of moves that has none of old
    cells.  It looks at no index outside of the buffer and comes to an end, unless the buffer is too
    large for addresses, and then every marked cell is where it was or has moved down to a place
    of its own, which is entered. -/
theorem compact_exact (hfresh : ∀ p, p.isOld → ¬ moves.contains p) :
    (∀ now moves' bottom top, Passes cells moves now moves' bottom top →
        squeeze now moves' bottom top = squeeze cells moves 0 cells.size ∧
          (bottom < top → bottom < now.size ∧ top - 1 < now.size)) ∧
      ((∃ r, compact cells moves = .ok r) ∨
        (Address.limit < cells.size ∧ compact cells moves = .error .indexTooLarge)) ∧
      ∀ r, compact cells moves = .ok r → Packed cells moves r :=
  ⟨fun _ _ _ _ hp => ⟨hp.squeeze_eq hfresh, hp.inside hfresh⟩, compact_answers hfresh,
    fun _ => packed hfresh⟩

/-- Three marked cells, of which the last lies behind three others. -/
def scattered : Array Cell :=
  #[{ car := .int 0, flags := { marked := true } }, { car := .int 1 },
    { car := .int 2, flags := { marked := true, promoted := true } }, { car := .int 3 }, .blank,
    { car := .string "last", cdr := .ref ⟨.old, 0⟩,
      flags := { marked := true, survivedTwice := true, promoted := true } }]

/-- A table with the move of a young cell. -/
def youngMove : Relocation := Relocation.empty.store ⟨.young 0, 5⟩ ⟨.young 1, 0⟩

/-- The last of the marked cells is the only one that moves, to the one place that is free for it. -/
theorem compact_exact_scattered : (∀ p, p.isOld → ¬ youngMove.contains p) ∧
    ∃ r, compact scattered youngMove = .ok r ∧ Packed scattered youngMove r ∧
      (r.moves.resolve ⟨.old, 5⟩).position = 1 ∧ r.kept[1]? = scattered[5]? ∧
      r.moves.size = youngMove.size + 1 := by
  have hfresh : ∀ p, p.isOld → ¬ youngMove.contains p := by
    rintro p hp hc
    rcases (Relocation.contains_store _ _ _ _).1 hc with rfl | hc
    · cases hp
    · exact Relocation.not_contains_empty p hc
  obtain ⟨-, hends, hpacked⟩ := @compact_exact scattered youngMove hfresh
  obtain ⟨r, hr⟩ := hends.resolve_right fun hlarge => absurd hlarge.1 (by decide)
  have hp := hpacked r hr
  have hcount : markedCount scattered = 3 := by decide
  obtain ⟨hlt, hfree⟩ := hp.moves ⟨.old, 5⟩ rfl (by decide) (by decide)
  obtain ⟨-, hcell⟩ := hp.found ⟨.old, 5⟩ rfl (by decide)
  have honly : ∀ i < 3, isLive scattered i = false → i = 1 := by decide
  have hplace := honly _ (hcount ▸ hlt) hfree
  rw [hplace] at hcell
  exact ⟨hfresh, r, hr, hp, hplace, hcell, hp.entered⟩

end Compaction

end Tenure
