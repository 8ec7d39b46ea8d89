/-
  Tenure — counting cells.

  * `countP_eq_ncard`: in a buffer all of whose cells can be named, counting cells is
    counting addresses.
  * `WellFormed.countP_active`, `WellFormed.countP_old`: so it is in the buffers of a heap.
  * `Tells.countP_active`, `Tells.countP_old`: what is counted when the live cells are marked,
    in terms of the heap before.
-/
import Mathlib.Data.Set.Card
import Tenure.Proofs.Requests

namespace Tenure

/-- The addresses of the cells of a buffer that are of some kind. -/
def addressesIn (space : Space) (good : Cell → Bool) (cells : List Cell) : Set Address :=
  {p | p.space = space ∧ ∃ c, cells[p.position]? = some c ∧ good c = true}

theorem mem_addressesIn_append {space : Space} {good : Cell → Bool} {cells : List Cell} {c : Cell}
    {p : Address} (hp : p.space = space) (hpos : p.position = cells.length) {q : Address} :
    q ∈ addressesIn space good (cells ++ [c]) ↔
      (good c = true ∧ q = p) ∨ q ∈ addressesIn space good cells := by
  have hfree : cells[p.position]? = none := by simp [hpos]
  have hlast : (cells ++ [c])[p.position]? = some c := by simp [hpos]
  by_cases hq : q = p
  · subst hq
    constructor
    · rintro ⟨-, d, hd, hg⟩
      rw [hlast] at hd
      cases hd
      exact Or.inl ⟨hg, rfl⟩
    · rintro (⟨hg, -⟩ | ⟨-, d, hd, -⟩)
      · exact ⟨hp, c, hlast, hg⟩
      · rw [hfree] at hd
        cases hd
  · have hold : q.space = space → (cells ++ [c])[q.position]? = cells[q.position]? := by
      intro hqs
      have hne : q.position ≠ cells.length := fun h =>
        hq (Address.ext_position (hqs.trans hp.symm) (h.trans hpos.symm))
      rw [List.getElem?_append]
      split
      · rfl
      · rw [List.getElem?_eq_none (by simp; omega), List.getElem?_eq_none (by omega)]
    constructor
    · rintro ⟨hqs, d, hd, hg⟩
      exact Or.inr ⟨hqs, d, hold hqs ▸ hd, hg⟩
    · rintro (⟨-, rfl⟩ | ⟨hqs, d, hd, hg⟩)
      · exact absurd rfl hq
      · exact ⟨hqs, d, (hold hqs).trans hd, hg⟩

/-- In a buffer all of whose cells can be named, counting cells is counting addresses. -/
theorem countP_eq_ncard {space : Space} {good : Cell → Bool} {cells : List Cell}
    (hsize : cells.length ≤ Address.limit) :
    (addressesIn space good cells).Finite ∧
      cells.countP good = (addressesIn space good cells).ncard := by
  induction cells using List.reverseRecOn with
  | nil => simp [addressesIn]
  | append_singleton cells c ih =>
    rw [List.length_append, List.length_singleton] at hsize
    obtain ⟨hfin, hcount⟩ := ih (by omega)
    obtain ⟨p, hp⟩ := Address.exists_make (s := space) (i := cells.length) (by omega)
    obtain ⟨hps, hpos⟩ := Address.make_eq_ok_iff.1 hp
    by_cases hc : good c = true
    · have hset : addressesIn space good (cells ++ [c]) = insert p (addressesIn space good cells) := by
        ext q
        rw [mem_addressesIn_append hps hpos, and_iff_right hc, Set.mem_insert_iff]
      have hnew : p ∉ addressesIn space good cells := by
        rintro ⟨-, d, hd, -⟩
        rw [hpos, List.getElem?_eq_none (Nat.le_refl _)] at hd
        cases hd
      rw [hset, Set.ncard_insert_of_notMem hnew hfin, ← hcount, List.countP_append,
        List.countP_singleton, if_pos hc]
      exact ⟨hfin.insert p, rfl⟩
    · have hset : addressesIn space good (cells ++ [c]) = addressesIn space good cells := by
        ext q
        rw [mem_addressesIn_append hps hpos]
        exact ⟨fun h => h.resolve_left fun h => hc h.1, Or.inr⟩
      rw [hset, ← hcount, List.countP_append, List.countP_singleton, if_neg hc, Nat.add_zero]
      exact ⟨hfin, rfl⟩

namespace Heap

variable {h : Heap}

theorem mem_addressesIn_active {good : Cell → Bool} {p : Address} :
    p ∈ addressesIn h.side.space good h.active.toList ↔
      ¬ p.isOld ∧ ∃ c, h.get? p = some c ∧ good c = true := by
  constructor
  · rintro ⟨hp, c, hc, hg⟩
    rw [Array.getElem?_toList, ← get?_of_active _ hp] at hc
    exact ⟨Address.not_isOld_of_young hp, c, hc, hg⟩
  · rintro ⟨hyoung, c, hc, hg⟩
    have hp : p.space = h.side.space := by
      by_contra hne
      rw [get?_of_elsewhere _ hyoung hne] at hc
      cases hc
    rw [get?_of_active _ hp, ← Array.getElem?_toList] at hc
    exact ⟨hp, c, hc, hg⟩

theorem mem_addressesIn_old {good : Cell → Bool} {p : Address} :
    p ∈ addressesIn .old good h.old.toList ↔ p.isOld ∧ ∃ c, h.get? p = some c ∧ good c = true := by
  show p.space = .old ∧ _ ↔ _
  rw [← Address.isOld_iff]
  refine and_congr_right fun hp => ?_
  rw [get?_eq_cellAt _ hp, Compaction.cellAt, if_pos hp, Array.getElem?_toList]

theorem WellFormed.countP_active (hh : h.WellFormed) (good : Cell → Bool) :
    h.active.countP good = Set.ncard {p | ¬ p.isOld ∧ ∃ c, h.get? p = some c ∧ good c = true} := by
  have hcapacity : h.settings.youngCapacity < Address.limit := hh.settings.2.1
  have hyoung := hh.young
  have hsize : h.active.toList.length ≤ Address.limit := by
    rw [Array.length_toList]
    omega
  rw [← Array.countP_toList, (countP_eq_ncard hsize).2]
  exact congrArg Set.ncard (Set.ext fun _ => mem_addressesIn_active)

theorem WellFormed.countP_old (hh : h.WellFormed) (good : Cell → Bool) :
    h.old.countP good = Set.ncard {p | p.isOld ∧ ∃ c, h.get? p = some c ∧ good c = true} := by
  have hcapacity : h.settings.oldCapacity < Address.limit := hh.settings.2.2.1
  have hold := hh.old
  have hsize : h.old.toList.length ≤ Address.limit := by
    rw [Array.length_toList]
    omega
  rw [← Array.countP_toList, (countP_eq_ncard hsize).2]
  exact congrArg Set.ncard (Set.ext fun _ => mem_addressesIn_old)

/-! ## When the live cells are marked -/

/-- The cells that carry a mark when the mark phase is over. -/
def Found (h : Heap) (p : Address) : Prop := h.Marks p ∨ h.Finds h.roots.addresses p

/-- On a heap without marks these are the cells that the roots reach. -/
theorem Clean.found_iff (hclean : h.Clean) {p : Address} : h.Found p ↔ h.Rooted p := by
  rw [Found, hclean.finds_iff, or_iff_right (hclean.not_marks p), Rooted]

/-- A condition on the cells with their marks, and what it says of the heap before. -/
def Tells (h : Heap) (good : Cell → Bool) (P : Address → Cell → Prop) : Prop :=
  ∀ p c d, h.purged.get? p = some c → h.prepared.get? p = some d → c.unmark = d.unmark →
    (d.isMarked = true ↔ h.purged.Found p) → (good d = true ↔ P p c)

namespace Tells

variable {good : Cell → Bool} {P : Address → Cell → Prop}

theorem addresses (ht : h.Tells good P) (p : Address) :
    (∃ d, h.prepared.get? p = some d ∧ good d = true) ↔ ∃ c, h.purged.get? p = some c ∧ P p c := by
  have hmark : ∀ {d}, h.prepared.get? p = some d → (d.isMarked = true ↔ h.purged.Found p) := by
    intro d hd
    have hmarks : h.prepared.Marks p ↔ h.purged.Found p := h.marks_prepared_iff
    rw [← hmarks, Marks, hd]
    simp
  constructor
  · rintro ⟨d, hd, hg⟩
    obtain ⟨c, hc, hunmark⟩ := unmark_prepared hd
    exact ⟨c, hc, (ht p c d hc hd hunmark (hmark hd)).1 hg⟩
  · rintro ⟨c, hc, hP⟩
    obtain ⟨d, hd⟩ := contains_iff.1 ((contains_prepared h p).trans (contains_iff.2 ⟨c, hc⟩))
    obtain ⟨c', hc', hunmark⟩ := unmark_prepared hd
    rw [hc] at hc'
    cases hc'
    exact ⟨d, hd, (ht p c d hc hd hunmark (hmark hd)).2 hP⟩

theorem countP_active (ht : h.Tells good P) (hh : h.WellFormed) : h.prepared.active.countP good =
    Set.ncard {p | ¬ p.isOld ∧ ∃ c, h.purged.get? p = some c ∧ P p c} := by
  rw [hh.prepared.countP_active]
  exact congrArg Set.ncard (Set.ext fun p => and_congr_right fun _ => ht.addresses p)

theorem countP_old (ht : h.Tells good P) (hh : h.WellFormed) : h.prepared.old.countP good =
    Set.ncard {p | p.isOld ∧ ∃ c, h.purged.get? p = some c ∧ P p c} := by
  rw [hh.prepared.countP_old]
  exact congrArg Set.ncard (Set.ext fun p => and_congr_right fun _ => ht.addresses p)

end Tells

end Heap

end Tenure
