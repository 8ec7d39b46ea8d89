/-
  Tenure — what a compaction of the old generation does.

  The walk of the two cursors keeps `Between`: below the lower cursor all cells are
  marked, from the upper one on none is, the cells between them have not been
  touched, and the marked cells of the buffer are carried over by the moves so
  far.  When the cursors meet, cutting the buffer there leaves the marked cells.

  * `Between.lower`, `Between.raise`, `Between.swap`: the three steps of the walk.
  * `Passes`: the states that the walk comes through; `Passes.between`: all of them keep the
    invariant, and `passes_squeeze`: the walk ends in one of them.
  * `squeeze_answers`: the walk comes to an end, unless the buffer is too large for addresses.
  * `Compacted`, `compacted`: the result of a compaction.
-/
import Tenure.Compaction
import Tenure.Proofs.Addresses
import Tenure.Proofs.Answers
import Tenure.Proofs.CarriedCells

namespace Tenure

namespace Compaction

/-- The cell at an address of the old generation, given its buffer. -/
def cellAt (cells : Array Cell) (p : Address) : Option Cell :=
  if p.isOld then cells[p.position]? else none

/-- The marked cell at an address of the old generation, given its buffer. -/
def liveAt (cells : Array Cell) (p : Address) : Option Cell :=
  (cellAt cells p).filter (·.isMarked)

theorem liveAt_eq_some_iff {cells : Array Cell} {p : Address} {c : Cell} :
    liveAt cells p = some c ↔ p.isOld ∧ cells[p.position]? = some c ∧ c.isMarked = true := by
  unfold liveAt cellAt
  split <;> simp_all [Option.filter_eq_some_iff]

theorem isLive_iff {cells : Array Cell} {i : Nat} :
    isLive cells i = true ↔ ∃ c, cells[i]? = some c ∧ c.isMarked = true := by
  cases h : cells[i]? <;> simp [isLive, h]

theorem liveAt_isSome_iff {cells : Array Cell} {p : Address} :
    (liveAt cells p).isSome ↔ p.isOld ∧ isLive cells p.position = true := by
  rw [Option.isSome_iff_exists, isLive_iff]
  simp [liveAt_eq_some_iff]

theorem liveAt_congr {cells cells' : Array Cell} {p : Address}
    (h : cells'[p.position]? = cells[p.position]?) : liveAt cells' p = liveAt cells p := by
  simp only [liveAt, cellAt, h]

theorem liveAt_eq_none {cells : Array Cell} {p : Address} (h : isLive cells p.position = false) :
    liveAt cells p = none := by
  rw [← Option.not_isSome_iff_eq_none, liveAt_isSome_iff, h]
  simp

theorem getElem?_exchange {cells : Array Cell} {i j : Nat} (hi : i < cells.size)
    (hj : j < cells.size) (k : Nat) :
    (cells.swapIfInBounds i j)[k]? =
      if k = j then cells[i]? else if k = i then cells[j]? else cells[k]? := by
  rw [Array.swapIfInBounds_def, dif_pos hi, dif_pos hj, Array.getElem?_swap]
  simp only [eq_comm (a := k)]
  split
  · simp [hi]
  · split <;> simp [hj]

theorem isLive_exchange {cells : Array Cell} {i j : Nat} (hi : i < cells.size)
    (hj : j < cells.size) (hdead : isLive cells i = false) (hlive : isLive cells j = true) (k : Nat) :
    isLive (cells.swapIfInBounds i j) k =
      if k = j then false else if k = i then true else isLive cells k := by
  unfold isLive at hlive hdead ⊢
  rw [getElem?_exchange hi hj]
  split
  · exact hdead
  · split
    · exact hlive
    · rfl

/-- The state of the walk over a buffer: what is between the cursors is still to be looked at. -/
structure Between (cells : Array Cell) (moves₀ : Relocation) (now : Array Cell)
    (moves : Relocation) (bottom top : Nat) : Prop where
  inside : bottom ≤ top ∧ top ≤ now.size
  perm : now.Perm cells
  below : ∀ i < bottom, isLive now i = true
  above : ∀ i, top ≤ i → isLive now i = false
  /-- At the lower cursor itself there may be a cell that has just been brought there. -/
  middle : ∀ i, bottom < i → i < top → now[i]? = cells[i]?
  unmoved : ∀ p, p.isOld → p.position < top → ¬ moves.contains p
  outside : ∀ p, p.isOld → now.size ≤ p.position → ¬ moves.contains p
  young : ∀ p, ¬ p.isOld → (moves.contains p = moves₀.contains p ∧ moves.resolve p = moves₀.resolve p)
  carries : Carries {p | (liveAt cells p).isSome} (liveAt cells) moves.resolve (liveAt now)

namespace Between

variable {cells : Array Cell} {moves₀ : Relocation} {now : Array Cell} {moves : Relocation}
  {bottom top : Nat}

theorem start (cells : Array Cell) {moves₀ : Relocation}
    (h : ∀ p, p.isOld → ¬ moves₀.contains p) : Between cells moves₀ cells moves₀ 0 cells.size where
  inside := ⟨Nat.zero_le _, Nat.le_refl _⟩
  perm := .refl _
  below i hi := absurd hi (Nat.not_lt_zero i)
  above i hi := by simp [isLive, hi]
  middle _ _ _ := rfl
  unmoved p hp _ := h p hp
  outside p hp _ := h p hp
  young _ _ := ⟨rfl, rfl⟩
  carries := by
    refine ⟨fun _ hp => hp, ?_, ?_, ?_⟩
    all_goals have stay : ∀ p, (liveAt cells p).isSome → moves₀.resolve p = p := fun p hp =>
      Relocation.resolve_of_not_contains (h p (liveAt_isSome_iff.1 hp).1)
    · intro p hp
      rw [stay p hp]
    · intro p hp q hq hpq
      rwa [stay p hp, stay q hq] at hpq
    · exact fun q hq => ⟨q, hq, stay q hq⟩

/-- The upper cursor passes over a cell without a mark. -/
theorem lower (h : Between cells moves₀ now moves bottom top) (hlt : bottom < top)
    (hdead : isLive now (top - 1) = false) : Between cells moves₀ now moves bottom (top - 1) where
  inside := by have := h.inside; omega
  perm := h.perm
  below := h.below
  above i hi := by
    by_cases hi' : i = top - 1
    · rw [hi', hdead]
    · exact h.above i (by omega)
  middle i hb ht := h.middle i hb (by omega)
  unmoved p hp ht := h.unmoved p hp (by omega)
  outside := h.outside
  young := h.young
  carries := h.carries

/-- The lower cursor passes over a marked cell. -/
theorem raise (h : Between cells moves₀ now moves bottom top) (hlt : bottom < top)
    (hlive : isLive now bottom = true) : Between cells moves₀ now moves (bottom + 1) top where
  inside := by have := h.inside; omega
  perm := h.perm
  below i hi := by
    by_cases hi' : i = bottom
    · rw [hi', hlive]
    · exact h.below i (by omega)
  above := h.above
  middle i hb ht := h.middle i (by omega) ht
  unmoved := h.unmoved
  outside := h.outside
  young := h.young
  carries := h.carries

/-- Both cursors are stopped, and their cells change places. -/
theorem swap (h : Between cells moves₀ now moves bottom top) (hlt : bottom < top)
    (hlive : isLive now (top - 1) = true) (hdead : isLive now bottom = false)
    {source target : Address} (hs : Address.old (top - 1) = .ok source)
    (ht : Address.old bottom = .ok target) :
    Between cells moves₀ (now.swapIfInBounds bottom (top - 1)) (moves.store source target) bottom
      (top - 1) := by
  obtain ⟨hsold, hspos⟩ := Address.old_eq_ok_iff.1 hs
  obtain ⟨htold, htpos⟩ := Address.old_eq_ok_iff.1 ht
  have hne : bottom ≠ top - 1 := fun he => by rw [he, hlive] at hdead; cases hdead
  have hin := h.inside
  have hb : bottom < now.size := by omega
  have htp : top - 1 < now.size := by omega
  have read := getElem?_exchange hb htp
  have live := isLive_exchange hb htp hdead hlive
  -- the cell at the upper cursor has not been moved before
  have hsource : moves.resolve source = source :=
    Relocation.resolve_of_not_contains (h.unmoved source hsold (by omega))
  have hsmem : (liveAt cells source).isSome := by
    rw [← liveAt_congr (h.middle source.position (by omega) (by omega)), liveAt_isSome_iff, hspos]
    exact ⟨hsold, hlive⟩
  have hfree : liveAt now target = none := liveAt_eq_none (by rw [htpos, hdead])
  refine
    { inside := ⟨by omega, by simp; omega⟩
      perm := ?_
      below := ?_
      above := ?_
      middle := ?_
      unmoved := ?_
      outside := ?_
      young := ?_
      carries := h.carries.move (p := source) (q := target) hsmem hfree (by simp)
        (fun a ha => by rw [Relocation.resolve_store, if_neg (Ne.symm ha)]) ?_ ?_ ?_ }
  · rw [Array.swapIfInBounds_def, dif_pos hb, dif_pos htp]
    exact (Array.swap_perm hb htp).trans h.perm
  · intro i hi
    rw [live, if_neg (by omega), if_neg (by omega)]
    exact h.below i hi
  · intro i hi
    rw [live]
    split
    · rfl
    · rw [if_neg (by omega)]
      exact h.above i (by omega)
  · intro i hbi hti
    rw [read, if_neg (by omega), if_neg (by omega)]
    exact h.middle i hbi (by omega)
  · intro p hp hti
    rw [Relocation.contains_store]
    rintro (rfl | hc)
    · omega
    · exact h.unmoved p hp (by omega) hc
  · intro p hp hle
    rw [Array.size_swapIfInBounds] at hle
    rw [Relocation.contains_store]
    rintro (rfl | hc)
    · omega
    · exact h.outside p hp hle hc
  · intro p hp
    have hps : source ≠ p := fun he => hp (he ▸ hsold)
    refine ⟨?_, ?_⟩
    · rw [← (h.young p hp).1, Bool.eq_iff_iff, Relocation.contains_store, or_iff_right hps]
    · rw [Relocation.resolve_store, if_neg hps, (h.young p hp).2]
  · rw [hsource]
    simp only [liveAt, cellAt, hsold, htold, if_true, hspos, htpos]
    rw [read, if_neg hne, if_pos rfl]
  · rw [hsource]
    exact liveAt_eq_none (by rw [live, if_pos hspos])
  · intro a hat has
    rw [hsource] at has
    by_cases ha : a.isOld
    · refine liveAt_congr ?_
      rw [read, if_neg, if_neg]
      · exact fun he => hat (Address.eq_of_old ha htold (he.trans htpos.symm))
      · exact fun he => has (Address.eq_of_old ha hsold (he.trans hspos.symm))
    · simp only [liveAt, cellAt, ha]
      rfl

/-- Where the cursors have met, the marked cells end. -/
theorem getElem?_take {meeting : Nat} (h : Between cells moves₀ now moves meeting meeting)
    (i : Nat) : (now.take meeting)[i]? = if isLive now i then now[i]? else none := by
  rw [Array.take_eq_extract, Array.getElem?_extract]
  by_cases hi : i < meeting
  · have := h.inside
    rw [h.below i hi]
    simp; omega
  · rw [h.above i (by omega)]
    simp; omega

theorem cellAt_take {meeting : Nat} (h : Between cells moves₀ now moves meeting meeting) :
    cellAt (now.take meeting) = liveAt now := by
  funext p
  unfold liveAt cellAt
  split
  · rw [h.getElem?_take, isLive]
    cases now[p.position]? with
    | none => simp
    | some c => cases hc : c.isMarked <;> simp [hc, Option.filter_some]
  · rfl

end Between

/-! ## The walk -/

/-- The states that the walk comes through on a buffer: the cells, the moves and the two cursors. -/
inductive Passes (cells : Array Cell) (moves₀ : Relocation) :
    Array Cell → Relocation → Nat → Nat → Prop
  | start : Passes cells moves₀ cells moves₀ 0 cells.size
  | lower {now moves bottom top} : Passes cells moves₀ now moves bottom top → bottom < top →
    isLive now (top - 1) = false → Passes cells moves₀ now moves bottom (top - 1)
  | raise {now moves bottom top} : Passes cells moves₀ now moves bottom top → bottom < top →
    isLive now (top - 1) = true → isLive now bottom = true →
    Passes cells moves₀ now moves (bottom + 1) top
  | swap {now moves bottom top source target} : Passes cells moves₀ now moves bottom top →
    bottom < top → isLive now (top - 1) = true → isLive now bottom = false →
    Address.old (top - 1) = .ok source → Address.old bottom = .ok target →
    Passes cells moves₀ (now.swapIfInBounds bottom (top - 1)) (moves.store source target) bottom
      (top - 1)

theorem Passes.between {cells : Array Cell} {moves₀ : Relocation}
    (hfresh : ∀ p, p.isOld → ¬ moves₀.contains p) {now : Array Cell} {moves : Relocation}
    {bottom top : Nat} (h : Passes cells moves₀ now moves bottom top) :
    Between cells moves₀ now moves bottom top := by
  induction h with
  | start => exact .start cells hfresh
  | lower _ hlt hdead ih => exact ih.lower hlt hdead
  | raise _ hlt _ hlive ih => exact ih.raise hlt hlive
  | swap _ hlt hlive hdead hsource htarget ih => exact ih.swap hlt hlive hdead hsource htarget

/-- Where the walk ends the cursors have met. -/
theorem passes_squeeze {cells : Array Cell} {moves₀ : Relocation} {now : Array Cell}
    {moves : Relocation} {bottom top : Nat} (h : Passes cells moves₀ now moves bottom top)
    (hin : bottom ≤ top) {s : Squeezed} (hs : squeeze now moves bottom top = .ok s) :
    Passes cells moves₀ s.cells s.moves s.meeting s.meeting := by
  fun_induction squeeze now moves bottom top with
  | case1 now moves bottom top hle =>
    cases hs
    rwa [show top = bottom from Nat.le_antisymm hle hin] at h
  | case2 now moves bottom top hle hdead ih =>
    exact ih (h.lower (by omega) (by simpa using hdead)) (by omega) hs
  | case3 now moves bottom top hle hlive' hlive ih =>
    exact ih (h.raise (by omega) (by simpa using hlive') hlive) (by omega) hs
  | case4 now moves bottom top hle hlive hdead ih =>
    obtain ⟨source, hsource, hs⟩ := bind_eq_ok_iff.1 hs
    obtain ⟨target, htarget, hs⟩ := bind_eq_ok_iff.1 hs
    split at hs
    · cases hs
    · rename_i hr
      obtain ⟨-, rfl⟩ := Relocation.record_eq_ok_iff.1 hr
      exact ih _ (h.swap (by omega) (by simpa using hlive) (by simpa using hdead) hsource htarget)
        (by omega) hs

/-- The walk ends without a fault, unless the buffer is too large for addresses. -/
theorem squeeze_answers {cells : Array Cell} {moves₀ : Relocation} {now : Array Cell}
    {moves : Relocation} {bottom top : Nat} (h : Between cells moves₀ now moves bottom top) :
    (∃ s, squeeze now moves bottom top = .ok s) ∨
      (Address.limit < now.size ∧ squeeze now moves bottom top = .error .indexTooLarge) := by
  fun_induction squeeze now moves bottom top with
  | case1 now moves bottom top hle => exact Or.inl ⟨_, rfl⟩
  | case2 now moves bottom top hle hdead ih => exact ih (h.lower (by omega) (by simpa using hdead))
  | case3 now moves bottom top hle hlive' hlive ih => exact ih (h.raise (by omega) hlive)
  | case4 now moves bottom top hle hlive hdead ih =>
    have hin := h.inside
    by_cases hsize : top - 1 < Address.limit
    · obtain ⟨source, hsource⟩ := Address.exists_make (s := .old) hsize
      obtain ⟨target, htarget⟩ := Address.exists_make (s := .old) (i := bottom) (by omega)
      obtain ⟨hold, hpos⟩ := Address.old_eq_ok_iff.1 hsource
      have hfresh : ¬ moves.contains source := h.unmoved source hold (by omega)
      have hr : Relocation.record source target moves = .ok () (moves.store source target) :=
        Relocation.record_eq_ok_iff.2 ⟨hfresh, rfl⟩
      rw [show Address.old (top - 1) = .ok source from hsource,
        show Address.old bottom = .ok target from htarget, ok_bind, ok_bind, hr]
      simpa using
        ih _ (h.swap (by omega) (by simpa using hlive) (by simpa using hdead) hsource htarget)
    · refine Or.inr ⟨by omega, ?_⟩
      rw [Address.old, Address.make, if_neg hsize]
      rfl

/-! ## The result -/

/-- What a compaction leaves: the marked cells, carried over by the moves, and apart from them the
    cells without a mark. -/
structure Compacted (cells : Array Cell) (moves₀ : Relocation) (r : Result) : Prop where
  perm : (r.kept ++ r.dropped).Perm cells
  live : ∀ c ∈ r.kept, c.isMarked = true
  dead : ∀ c ∈ r.dropped, c.isMarked = false
  outside : ∀ p, p.isOld → cells.size ≤ p.position → ¬ r.moves.contains p
  young : ∀ p, ¬ p.isOld →
    (r.moves.contains p = moves₀.contains p ∧ r.moves.resolve p = moves₀.resolve p)
  carries : Carries {p | (liveAt cells p).isSome} (liveAt cells) r.moves.resolve (cellAt r.kept)

theorem compacted {cells : Array Cell} {moves : Relocation} (h : ∀ p, p.isOld → ¬ moves.contains p)
    {r : Result} (hr : compact cells moves = .ok r) : Compacted cells moves r := by
  obtain ⟨s, hs, hr⟩ := bind_eq_ok_iff.1 hr
  cases hr
  have hb := (passes_squeeze .start (Nat.zero_le _) hs).between h
  have hread := hb.getElem?_take
  refine
    { perm := ?_
      live := ?_
      dead := ?_
      outside := by rw [← hb.perm.size_eq]; exact hb.outside
      young := hb.young
      carries := by rw [hb.cellAt_take]; exact hb.carries }
  · have hcut : s.cells.take s.meeting ++ s.cells.drop s.meeting = s.cells := by
      simp [Array.take_eq_extract, Array.extract_append_extract]
    rw [hcut]
    exact hb.perm
  · intro c hc
    obtain ⟨i, hi⟩ := Array.getElem?_of_mem hc
    rw [hread] at hi
    split at hi
    · rename_i hl
      obtain ⟨d, hd, hm⟩ := isLive_iff.1 hl
      rw [hd] at hi
      cases hi
      exact hm
    · cases hi
  · intro c hc
    obtain ⟨i, hi⟩ := Array.getElem?_of_mem hc
    rw [Array.drop_eq_extract, Array.getElem?_extract] at hi
    split at hi
    · by_contra hm
      have := hb.above (s.meeting + i) (by omega)
      rw [Bool.eq_false_iff, Ne, isLive_iff] at this
      exact this ⟨c, hi, by simpa using hm⟩
    · cases hi

/-- A compaction comes to an end, unless the buffer is too large for addresses. -/
theorem compact_answers {cells : Array Cell} {moves : Relocation}
    (h : ∀ p, p.isOld → ¬ moves.contains p) : (∃ r, compact cells moves = .ok r) ∨
      (Address.limit < cells.size ∧ compact cells moves = .error .indexTooLarge) := by
  rcases squeeze_answers (.start cells h) with ⟨s, hs⟩ | ⟨hlimit, hs⟩
  · exact Or.inl ⟨_, bind_eq_ok_iff.2 ⟨s, hs, rfl⟩⟩
  · refine Or.inr ⟨hlimit, ?_⟩
    rw [compact, hs]
    rfl

theorem exists_compact {cells : Array Cell} {moves : Relocation}
    (h : ∀ p, p.isOld → ¬ moves.contains p) (hsize : cells.size ≤ Address.limit) :
    ∃ r, compact cells moves = .ok r :=
  (compact_answers h).resolve_right fun hlarge => absurd hlarge.1 (Nat.not_lt.2 hsize)

/-- The number of cells that a compaction keeps. -/
theorem Compacted.size {cells : Array Cell} {moves₀ : Relocation} {r : Result}
    (h : Compacted cells moves₀ r) :
    r.kept.size = markedCount cells ∧ r.kept.size + r.dropped.size = cells.size := by
  have hkept : r.kept.countP (·.isMarked) = r.kept.size := Array.countP_eq_size.2 h.live
  have hdropped : r.dropped.countP (·.isMarked) = 0 :=
    Array.countP_eq_zero.2 fun c hc => by rw [h.dead c hc]; simp
  have hcount := h.perm.toList.countP_eq (·.isMarked)
  have hsize := h.perm.size_eq
  rw [Array.countP_toList, Array.countP_toList, Array.countP_append] at hcount
  rw [Array.size_append] at hsize
  exact ⟨by rw [markedCount]; omega, hsize⟩

end Compaction

end Tenure
