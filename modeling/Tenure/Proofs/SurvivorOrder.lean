/-
  Tenure — the order of the cells that a collection moves.

  The marked cells of the young buffer leave it in order, so the place of each of them in the
  buffer that receives it is a number of cells: those that the buffer had, and those that have
  gone there before.

  * `Evacuation.companions`: how many cells of a list go the same way.
  * `Evacuation.position_run`: the place of every cell that has moved.
  * `Heap.InOrder`: cells that go the same way stay in their order, and those that become old come
    after the old ones; `inOrder_newAddress`: a collection moves cells like this.
-/
import Tenure.Proofs.CollectionReport

namespace Tenure

namespace Evacuation

variable {threshold : Nat} {side : Semispace} {index : Nat} {c : Cell} {e e' : Evacuation}

/-- How many cells the buffer has that is there for the cells that are due, or for the others. -/
def filled (e : Evacuation) (due : Bool) : Nat := if due then e.old.size else e.young.size

/-- How many of some cells go to the buffer that is there for those that are due, or to the other. -/
def companions (threshold : Nat) (due : Bool) (cells : List Cell) : Nat :=
  cells.countP fun c => c.isMarked && c.isDue threshold == due

theorem Awaits.position {due : Bool} {q : Address} (h : e.Awaits side q due) :
    q.position = e.filled due := by
  cases due with
  | true => exact h.2
  | false => exact h.2

theorem filled_receive (e : Evacuation) (c : Cell) (moves : Relocation) (due : Bool) :
    (e.receive threshold c moves).filled due =
      e.filled due + if c.isDue threshold == due then 1 else 0 := by
  unfold receive filled
  cases c.isDue threshold <;> cases due <;> simp

/-- **The place of a cell that has moved**: behind what was there, and behind the cells before it that
    go the same way. -/
theorem position_run {cells : List Cell} (h : run threshold side cells index e = .ok e')
    {p : Address} {j : Nat} (hp : p.space = side.space) (hpos : p.position = index + j)
    (hj : cells[j]? = some c) (hm : c.isMarked = true) :
    (e'.moves.resolve p).position =
      e.filled (c.isDue threshold) + companions threshold (c.isDue threshold) (cells.take j) := by
  induction cells generalizing index e j with
  | nil => cases hj
  | cons d rest ih =>
    obtain ⟨e₁, hv, hr⟩ := run_cons_eq_ok h
    cases j with
    | zero =>
      cases hj
      rcases visit_cases hv with ⟨hm', -⟩ | ⟨-, source, target, ⟨hs, hspos⟩, hq, -, rfl⟩
      · rw [hm] at hm'
        cases hm'
      · obtain rfl : source = p := Address.ext_position (hs.trans hp.symm) (hspos.trans hpos.symm)
        -- the cells that follow are behind this one, so it does not move again
        have hstay := (resolve_run hr source).2 (by rintro d ⟨-, k, hk, -⟩; omega)
        rw [hstay, moves_receive, Relocation.resolve_store, if_pos rfl, hq.position]
        rfl
    | succ j =>
      have htail := ih hr (by omega) hj
      rw [htail, List.take_succ_cons, companions, companions, List.countP_cons]
      rcases visit_cases hv with ⟨hm', rfl⟩ | ⟨hm', _, _, -, -, -, rfl⟩
      · simp [hm', filled]
      · rw [filled_receive, hm', Bool.true_and]
        omega

/-- A cell that goes a way is one more on it. -/
theorem companions_lt {cells : List Cell} {i j : Nat} (hij : i < j) (hi : cells[i]? = some c)
    (hm : c.isMarked = true) :
    companions threshold (c.isDue threshold) (cells.take i) <
      companions threshold (c.isDue threshold) (cells.take j) := by
  obtain ⟨hlt, rfl⟩ := List.getElem?_eq_some_iff.1 hi
  have hone : companions threshold (cells[i].isDue threshold) (cells.take (i + 1)) =
      companions threshold (cells[i].isDue threshold) (cells.take i) + 1 := by
    rw [List.take_add_one, List.getElem?_eq_getElem hlt, companions, companions, List.countP_append]
    simp [hm]
  have hmore : companions threshold (cells[i].isDue threshold) (cells.take (i + 1)) ≤
      companions threshold (cells[i].isDue threshold) (cells.take j) :=
    ((List.take_sublist_take_left hij).countP_le)
  omega

end Evacuation

namespace Heap

variable {h h' : Heap} {compacting : Bool} {r : Compaction.Result} {e : Evacuation} {p q : Address}
  {c : Cell}

/-- The place of a young cell of a marked heap that is moved. -/
theorem position_moved (hidle : h.idle = #[])
    (he : Evacuation.run h.settings.promotionThreshold h.side h.active.toList 0
      { young := h.idle, old := r.kept, moves := r.moves } = .ok e)
    (hp : p.space = h.side.space) (hc : h.get? p = some c) (hm : c.isMarked = true) :
    (e.moves.resolve p).position =
      (if c.isDue h.settings.promotionThreshold then r.kept.size else 0) +
        Evacuation.companions h.settings.promotionThreshold
          (c.isDue h.settings.promotionThreshold) (h.active.toList.take p.position) := by
  have hj : h.active.toList[p.position]? = some c := by
    rw [Array.getElem?_toList, ← get?_of_active h hp, hc]
  rw [Evacuation.position_run he hp (Nat.zero_add _).symm hj hm, Evacuation.filled, hidle]
  rfl

/-- The place of an old cell that is kept. -/
theorem position_kept (hrel : h.relocations = .empty) (hr : h.compacted compacting = .ok r)
    (he : Evacuation.run h.settings.promotionThreshold h.side h.active.toList 0
      { young := h.idle, old := r.kept, moves := r.moves } = .ok e)
    (hp : p.isOld) (hkept : (h.carried compacting p).isSome) :
    (e.moves.resolve p).position < r.kept.size := by
  have hs : p.space ≠ h.side.space := fun hs => Address.not_isOld_of_young hs hp
  rw [(Evacuation.resolve_run he p).2 fun d hd => absurd ((names_active h).1 hd).1 hs]
  rw [carried, if_pos hp] at hkept
  have hcell := (carries_compacted hrel hr).cell p hkept
  obtain ⟨d, hd⟩ := Option.isSome_iff_exists.1 hkept
  rw [hd, Compaction.cellAt] at hcell
  split at hcell
  · exact (Array.getElem?_eq_some_iff.1 hcell).1
  · cases hcell

/-- The map takes young cells that the roots reach and that go the same way to places in the same
    order, and those that become old to places behind all old cells that are kept. -/
structure InOrder (h : Heap) (compacting : Bool) (f : Address → Address) : Prop where
  young : ∀ p q, h.Rooted p → h.Rooted q → ¬ p.isOld → ¬ q.isOld → ((f p).isOld ↔ (f q).isOld) →
    p.position < q.position → (f p).position < (f q).position
  behind : ∀ p ∈ h.keptOld compacting, ∀ q, h.Rooted q → ¬ q.isOld → (f q).isOld →
    (f p).isOld ∧ (f p).position < (f q).position

/-- A young cell that the roots reach, as it is when the cells are marked. -/
theorem Clean.exists_marked (hclean : h.Clean) (hp : h.purged.Rooted p) (hyoung : ¬ p.isOld) :
    ∃ c, h.prepared.get? p = some c ∧ c.isMarked = true ∧ p.space = h.prepared.side.space := by
  obtain ⟨c, hc, hm⟩ := (marks_prepared_iff h).2 (Or.inr ((Clean.finds_iff (h := h.purged) hclean).2 hp))
  refine ⟨c, hc, hm, ?_⟩
  by_contra hs
  rw [get?_of_elsewhere _ hyoung hs] at hc
  cases hc

/-- **A collection keeps the order** of the cells that it moves. -/
theorem inOrder_newAddress (hclean : h.Clean) {k : Collection} (hk : h.collect = .ok k)
    {report : CollectionSummary} {relocations : Nat} {oldGarbage youngGarbage : Array Cell}
    (ho : k.outcome = .finished report relocations oldGarbage youngGarbage) :
    h.purged.InOrder report.oldCollected h.newAddress := by
  obtain ⟨r, e, hr, he, hnewAddress, -⟩ := exists_evacuation hk ho
  have hmoved := moved_newAddress hk ho
  have hidle : h.prepared.idle = #[] := by rw [idle_prepared, (collect_cases hk).1]
  have hway : ∀ {p c}, h.prepared.get? p = some c → c.isMarked = true → ¬ p.isOld →
      ((h.newAddress p).isOld ↔ c.isDue h.prepared.settings.promotionThreshold = true) := by
    intro p c hc hm hp
    rw [hmoved.isOld p c hc ((carried_isSome_iff _).2 (Or.inl ⟨c, hc, hm⟩)), or_iff_right hp]
  constructor
  · intro p q hp hq hpy hqy hsame hlt
    obtain ⟨c, hc, hcm, hps⟩ := hclean.exists_marked hp hpy
    obtain ⟨d, hd, hdm, hqs⟩ := hclean.exists_marked hq hqy
    have hdue : d.isDue h.prepared.settings.promotionThreshold =
        c.isDue h.prepared.settings.promotionThreshold := by
      rw [hway hc hcm hpy, hway hd hdm hqy] at hsame
      exact (Bool.eq_iff_iff.2 hsame).symm
    have hcell : h.prepared.active.toList[p.position]? = some c := by
      rw [Array.getElem?_toList, ← get?_of_active _ hps, hc]
    rw [hnewAddress, position_moved hidle he hps hc hcm, position_moved hidle he hqs hd hdm, hdue]
    exact Nat.add_lt_add_left (Evacuation.companions_lt hlt hcell hcm) _
  · intro p hp q hq hqy hold
    obtain ⟨d, hd, hdm, hqs⟩ := hclean.exists_marked hq hqy
    have hkept : (h.prepared.carried report.oldCollected p).isSome :=
      (carried_prepared_iff h).2 (Clean.keeps_of_keptOld (h := h.purged) hclean hp)
    obtain ⟨c, hc⟩ := contains_iff.1 ((contains_prepared h p).trans hp.2.1)
    refine ⟨(hmoved.isOld p c hc hkept).2 (Or.inl hp.1), ?_⟩
    have hbefore := position_kept rfl hr he hp.1 hkept
    rw [hway hd hdm hqy] at hold
    rw [hnewAddress, position_moved hidle he hqs hd hdm, if_pos hold]
    omega

end Heap

end Tenure
