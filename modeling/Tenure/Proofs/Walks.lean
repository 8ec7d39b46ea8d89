/-
  Tenure — where walks lead.

  A walk has no bound of its own: it follows the cdrs from cell to cell, across the generations, and
  ends where there is no cell to follow.  As there are only so many cells, it ends unless it comes back
  to one of them, and then it goes round for ever.

  * `Heap.Precedes`: a cell whose cdr leads to another one; `Heap.Revisits`: following the cdrs comes
    back to a cell.
  * `Heap.visit?`: the cell so many steps along; `getElem?_walk`: a walk yields one after the other.
  * `visit?_add`: the rest of the way is the way from where it has come to; `visit?_periodic`: so from a
    cell that is met again the way repeats itself.
  * `exists_end_iff`: a walk ends unless it comes back to a cell.
  * `walk_exact`: what a walk yields, when it ends, and where.
-/
import Mathlib.Logic.Relation
import Tenure.Proofs.IdealLists

namespace Tenure.Heap

variable {h : Heap} {p q r : Address} {i j d m n limit : Nat}

/-! ## Steps along the cdrs -/

/-- A cell whose cdr leads to another one. -/
def Precedes (h : Heap) (p q : Address) : Prop := h.next? p = some q ∧ h.contains q

/-- Following the cdrs comes back to a cell. -/
def Revisits (h : Heap) (p : Address) : Prop :=
  ∃ q, Relation.ReflTransGen h.Precedes p q ∧ Relation.TransGen h.Precedes q q

/-- The cell so many steps along the cdrs. -/
def visit? (h : Heap) (p : Address) : Nat → Option Address
  | 0 => if h.contains p then some p else none
  | n + 1 => (h.visit? p n).bind fun q => (h.next? q).filter h.contains

theorem contains_of_next? (hq : h.next? p = some q) : h.contains p := by
  obtain ⟨c, hc, -⟩ := Option.bind_eq_some_iff.1 hq
  exact contains_iff.2 ⟨c, hc⟩

theorem Precedes.contains (hpq : h.Precedes p q) : h.contains p := contains_of_next? hpq.1

theorem visit?_zero (hp : h.contains p) : h.visit? p 0 = some p := if_pos hp

theorem visit?_succ_eq_some_iff :
    h.visit? p (n + 1) = some r ↔ ∃ q, h.visit? p n = some q ∧ h.Precedes q r := by
  simp [visit?, Precedes, Option.bind_eq_some_iff, Option.filter_eq_some_iff]

theorem contains_of_visit? (hq : h.visit? p n = some q) : h.contains q := by
  cases n with
  | zero =>
    unfold visit? at hq
    split at hq
    · cases hq
      assumption
    · cases hq
  | succ n =>
    obtain ⟨-, -, -, hq⟩ := visit?_succ_eq_some_iff.1 hq
    exact hq

theorem visit?_of_not_contains (hp : ¬ h.contains p) : h.visit? p n = none := by
  induction n with
  | zero => exact if_neg hp
  | succ n ih => rw [visit?, ih, Option.bind_none]

/-- The first step taken apart. -/
theorem visit?_succ (hp : h.contains p) :
    h.visit? p (n + 1) = (h.next? p).bind fun q => h.visit? q n := by
  induction n with
  | zero =>
    rw [visit?, visit?_zero hp, Option.bind_some]
    cases h.next? p <;> simp [visit?, Option.filter]
  | succ n ih => rw [visit?, ih, Option.bind_assoc]; rfl

/-- **The rest of the way** is the way from where it has come to. -/
theorem visit?_add (hq : h.visit? p m = some q) (n : Nat) : h.visit? p (m + n) = h.visit? q n := by
  induction n with
  | zero => rw [Nat.add_zero, hq, visit?_zero (contains_of_visit? hq)]
  | succ n ih => rw [← Nat.add_assoc, visit?, ih, visit?]

theorem visit?_eq_none_of_le (hm : h.visit? p m = none) (hle : m ≤ n) : h.visit? p n = none := by
  induction n, hle using Nat.le_induction with
  | base => exact hm
  | succ n _ ih => rw [visit?, ih, Option.bind_none]

/-! ## Coming back -/

theorem reaches_of_visit? (hq : h.visit? p n = some q) : Relation.ReflTransGen h.Precedes p q := by
  induction n generalizing q with
  | zero =>
    unfold visit? at hq
    split at hq
    · cases hq
      exact .refl
    · cases hq
  | succ n ih =>
    obtain ⟨r, hr, hrq⟩ := visit?_succ_eq_some_iff.1 hq
    exact (ih hr).tail hrq

theorem goes_of_visit? (hd : 0 < d) (hq : h.visit? p d = some q) :
    Relation.TransGen h.Precedes p q := by
  obtain ⟨n, rfl⟩ := Nat.exists_eq_succ_of_ne_zero hd.ne'
  obtain ⟨r, hr, hrq⟩ := visit?_succ_eq_some_iff.1 hq
  exact .tail' (reaches_of_visit? hr) hrq

theorem exists_visit? (hp : h.contains p) (hq : Relation.ReflTransGen h.Precedes p q) :
    ∃ n, h.visit? p n = some q := by
  induction hq with
  | refl => exact ⟨0, visit?_zero hp⟩
  | tail _ hstep ih =>
    obtain ⟨n, hn⟩ := ih
    exact ⟨n + 1, visit?_succ_eq_some_iff.2 ⟨_, hn, hstep⟩⟩

theorem exists_visit?_of_goes (hq : Relation.TransGen h.Precedes p q) :
    ∃ d, 0 < d ∧ h.visit? p d = some q := by
  obtain ⟨r, hr, hstep⟩ := Relation.TransGen.tail'_iff.1 hq
  have hp : h.contains p := by
    obtain ⟨s, hs, -⟩ := Relation.TransGen.head'_iff.1 hq
    exact hs.contains
  obtain ⟨n, hn⟩ := exists_visit? hp hr
  exact ⟨n + 1, Nat.succ_pos n, visit?_succ_eq_some_iff.2 ⟨r, hn, hstep⟩⟩

theorem visit?_rounds (hback : h.visit? q d = some q) (k : Nat) : h.visit? q (k * d) = some q := by
  induction k with
  | zero => rw [Nat.zero_mul, visit?_zero (contains_of_visit? hback)]
  | succ k ih => rw [Nat.succ_mul, visit?_add ih, hback]

/-- **From a cell that is met again** the way goes on for ever, and repeats itself. -/
theorem visit?_periodic (hd : 0 < d) (hi : h.visit? p i = some q) (hj : h.visit? p (i + d) = some q)
    (hn : i ≤ n) : (h.visit? p n).isSome ∧ h.visit? p (n + d) = h.visit? p n := by
  have hback : h.visit? q d = some q := by rw [← visit?_add hi, hj]
  obtain ⟨k, rfl⟩ := Nat.exists_eq_add_of_le hn
  constructor
  · rw [visit?_add hi, Option.isSome_iff_ne_none]
    intro hnone
    -- after so many rounds the way has come further, and is back at the cell
    have hlater := visit?_eq_none_of_le hnone (Nat.le_mul_of_pos_right k hd)
    rw [visit?_rounds hback] at hlater
    cases hlater
  · rw [show i + k + d = i + d + k by omega, visit?_add hj, visit?_add hi]

/-! ## Walks -/

/-- **A walk** yields the cells along the cdrs, one after the other. -/
theorem getElem?_walk (h : Heap) (limit : Nat) (p : Address) (i : Nat) :
    (h.walk limit p)[i]? = if i < limit then h.visit? p i else none := by
  induction limit generalizing p i with
  | zero => simp [walk]
  | succ limit ih =>
    by_cases hp : h.contains p
    · rw [walk, if_pos hp]
      cases i with
      | zero => simp [visit?_zero hp]
      | succ i =>
        rw [List.getElem?_cons_succ, visit?_succ hp]
        cases h.next? p with
        | none => simp
        | some q => simp [ih]
    · rw [walk, if_neg hp, visit?_of_not_contains hp]
      simp

/-- A walk is shorter than it might be if some cell along the way is missing. -/
theorem length_walk_lt_iff : (h.walk n p).length < n ↔ ∃ i < n, h.visit? p i = none := by
  constructor
  · intro hlt
    have hend : (h.walk n p)[(h.walk n p).length]? = none := List.getElem?_length _
    rw [getElem?_walk, if_pos hlt] at hend
    exact ⟨_, hlt, hend⟩
  · rintro ⟨i, hi, hnone⟩
    have hend : (h.walk n p)[i]? = none := by rw [getElem?_walk, if_pos hi, hnone]
    exact (List.getElem?_eq_none_iff.1 hend).trans_lt hi

/-- Each cell of a walk follows the one before. -/
theorem isChain_walk (h : Heap) (n : Nat) (p : Address) :
    (h.walk n p).IsChain fun q r => h.next? q = some r := by
  rw [List.isChain_iff_getElem]
  intro i hi
  have hlt : i + 1 < n := hi.trans_le (length_walk_le h n p)
  have hnext : (h.walk n p)[i + 1]? = some (h.walk n p)[i + 1] := List.getElem?_eq_getElem hi
  have hthis : (h.walk n p)[i]? = some (h.walk n p)[i] := List.getElem?_eq_getElem (by omega)
  rw [getElem?_walk, if_pos hlt] at hnext
  rw [getElem?_walk, if_pos (by omega)] at hthis
  obtain ⟨q, hq, hstep⟩ := visit?_succ_eq_some_iff.1 hnext
  obtain rfl : q = _ := Option.some.inj (hq.symm.trans hthis)
  exact hstep.1

/-- Where a walk ends, there is no cell to go on to. -/
theorem not_contains_of_last (hlt : (h.walk n p).length < n) (hq : (h.walk n p).getLast? = some q)
    (hr : h.next? q = some r) : ¬ h.contains r := by
  intro hcontains
  have hpos : 0 < (h.walk n p).length := by
    rw [List.length_pos_iff]
    rintro hnil
    rw [hnil] at hq
    cases hq
  have hend : (h.walk n p)[(h.walk n p).length]? = none := List.getElem?_length _
  rw [getElem?_walk, if_pos hlt] at hend
  rw [List.getLast?_eq_getElem?, getElem?_walk, if_pos (by omega)] at hq
  have hmore := visit?_succ_eq_some_iff.2 ⟨q, hq, hr, hcontains⟩
  rw [Nat.sub_add_cancel hpos, hend] at hmore
  cases hmore

/-! ## The end of a walk -/

theorem revisits_iff : h.Revisits p ↔
    ∃ i d q, 0 < d ∧ h.visit? p i = some q ∧ h.visit? p (i + d) = some q := by
  constructor
  · rintro ⟨q, hpq, hqq⟩
    obtain ⟨s, hs, -⟩ := Relation.TransGen.head'_iff.1 (Relation.TransGen.trans_right hpq hqq)
    obtain ⟨i, hi⟩ := exists_visit? hs.contains hpq
    obtain ⟨d, hd, hback⟩ := exists_visit?_of_goes hqq
    exact ⟨i, d, q, hd, hi, by rw [visit?_add hi, hback]⟩
  · rintro ⟨i, d, q, hd, hi, hj⟩
    refine ⟨q, reaches_of_visit? hi, goes_of_visit? hd ?_⟩
    rw [← visit?_add hi, hj]

/-- A walk that does not come back yields different cells. -/
theorem nodup_walk (hp : ¬ h.Revisits p) (n : Nat) : (h.walk n p).Nodup := by
  rw [List.nodup_iff_getElem?_ne_getElem?]
  intro i j hij hj heq
  have hlt : j < n := hj.trans_le (length_walk_le h n p)
  have hsome : (h.walk n p)[j]? = some (h.walk n p)[j] := List.getElem?_eq_getElem hj
  -- one cell at two places of the walk is one that the walk comes back to
  rw [hsome, getElem?_walk, if_pos (by omega)] at heq
  rw [getElem?_walk, if_pos hlt] at hsome
  exact hp (revisits_iff.2 ⟨i, j - i, _, by omega, heq, by rwa [Nat.add_sub_cancel' hij.le]⟩)

theorem length_walk_le_cellCount (hp : ¬ h.Revisits p) (n : Nat) :
    (h.walk n p).length ≤ h.cellCount :=
  length_le_cellCount (nodup_walk hp n) fun _ => contains_of_mem_walk

theorem length_walk_of_revisits (hp : h.Revisits p) (n : Nat) : (h.walk n p).length = n := by
  obtain ⟨i, d, q, hd, hi, hj⟩ := revisits_iff.1 hp
  refine (length_walk_le h n p).antisymm (Nat.le_of_not_lt fun hlt => ?_)
  obtain ⟨k, -, hk⟩ := length_walk_lt_iff.1 hlt
  have hlater := (visit?_periodic hd hi hj (Nat.le_add_right i k)).1
  rw [visit?_eq_none_of_le hk (Nat.le_add_left k i)] at hlater
  cases hlater

/-- **A walk ends** unless it comes back to a cell. -/
theorem exists_end_iff : (∃ n, (h.walk n p).length < n) ↔ ¬ h.Revisits p := by
  constructor
  · rintro ⟨n, hn⟩ hp
    rw [length_walk_of_revisits hp] at hn
    exact Nat.lt_irrefl n hn
  · intro hp
    exact ⟨h.cellCount + 1, Nat.lt_succ_of_le (length_walk_le_cellCount hp _)⟩

/-- All of a walk is found unless it comes back to a cell. -/
theorem walkAll_eq_none_iff : h.walkAll p = none ↔ h.Revisits p := by
  unfold walkAll
  constructor
  · intro hnone
    by_contra hp
    rw [if_pos (length_walk_le_cellCount hp _)] at hnone
    cases hnone
  · intro hp
    exact if_neg (by rw [length_walk_of_revisits hp]; omega)

/-- **From a cell that it comes back to** a walk repeats itself, in rounds of one length. -/
theorem exists_round (hpq : Relation.ReflTransGen h.Precedes p q)
    (hqq : Relation.TransGen h.Precedes q q) : (∃ i, h.visit? p i = some q) ∧
      ∃ d, 0 < d ∧ ∀ i, h.visit? p i = some q →
        ∀ n, i ≤ n → (h.visit? p n).isSome ∧ h.visit? p (n + d) = h.visit? p n := by
  obtain ⟨d, hd, hback⟩ := exists_visit?_of_goes hqq
  refine ⟨?_, d, hd, ?_⟩
  · obtain ⟨i, -, hi⟩ := exists_visit?_of_goes (Relation.TransGen.trans_right hpq hqq)
    exact ⟨i, hi⟩
  · intro i hi n hn
    exact visit?_periodic hd hi (by rw [visit?_add hi, hback]) hn

/-- **What a walk yields.**  Cells only, the first address first, and then each one that the cdr before
    it leads to.  It ends if and only if following the cdrs comes back to no cell; then it has yielded
    different cells, no more than there are, and has stopped where no cell follows.  If it comes back
    to a cell, it goes on for ever, and repeats itself from that cell on. -/
theorem walk_exact (h : Heap) (p : Address) :
    (∀ n, (∀ i, (h.walk n p)[i]? = if i < n then h.visit? p i else none) ∧
      (h.walk (n + 1) p).head? = (if h.contains p then some p else none) ∧
      (∀ q ∈ h.walk n p, h.contains q) ∧ (h.walk n p).IsChain fun q r => h.next? q = some r) ∧
    ((∃ n, (h.walk n p).length < n) ↔ ¬ h.Revisits p) ∧ (h.walkAll p = none ↔ h.Revisits p) ∧
    (∀ n, (h.walk n p).length < n →
      (h.walk n p).length ≤ h.active.size + h.old.size ∧ (h.walk n p).Nodup ∧
      ∀ q, (h.walk n p).getLast? = some q → ∀ r, h.next? q = some r → ¬ h.contains r) ∧
    ∀ q, Relation.ReflTransGen h.Precedes p q → Relation.TransGen h.Precedes q q →
      (∃ i, h.visit? p i = some q) ∧ ∃ d, 0 < d ∧ ∀ i, h.visit? p i = some q →
        ∀ n, i ≤ n → (h.visit? p n).isSome ∧ h.visit? p (n + d) = h.visit? p n := by
  refine ⟨?_, exists_end_iff, walkAll_eq_none_iff, ?_, ?_⟩
  · intro n
    refine ⟨getElem?_walk h n p, ?_, fun q => contains_of_mem_walk, isChain_walk h n p⟩
    rw [List.head?_eq_getElem?, getElem?_walk, if_pos n.succ_pos]
    rfl
  · intro n hn
    have hp : ¬ h.Revisits p := exists_end_iff.1 ⟨n, hn⟩
    exact ⟨length_walk_le_cellCount hp n, nodup_walk hp n, fun q hq r => not_contains_of_last hn hq⟩
  · intro q hpq hqq
    exact exists_round hpq hqq

/-- A heap with a list that crosses the generations and comes back to its second cell, and a list that
    ends in the young buffer that stands by. -/
def lasso : Heap where
  settings := .standard
  side := .second
  active := #[.cons (.int 1) (.ref ⟨.old, 0⟩), .cons (.int 3) (.ref ⟨.old, 0⟩),
    .cons (.int 5) (.ref ⟨.old, 1⟩)]
  old := #[.cons (.int 2) (.ref ⟨.young 1, 1⟩), .cons (.int 6) (.ref ⟨.young 0, 0⟩)]

theorem walk_exact_lasso :
    lasso.walk 5 ⟨.young 1, 0⟩ =
      [⟨.young 1, 0⟩, ⟨.old, 0⟩, ⟨.young 1, 1⟩, ⟨.old, 0⟩, ⟨.young 1, 1⟩] ∧
    (∀ n, (lasso.walk n ⟨.young 1, 0⟩).length = n) ∧
    lasso.walk 5 ⟨.young 1, 2⟩ = [⟨.young 1, 2⟩, ⟨.old, 1⟩] ∧ ¬ lasso.Revisits ⟨.young 1, 2⟩ := by
  have hround : lasso.Revisits ⟨.young 1, 0⟩ :=
    revisits_iff.2 ⟨1, 2, ⟨.old, 0⟩, by decide, by decide, by decide⟩
  obtain ⟨-, hends, -⟩ := walk_exact lasso ⟨.young 1, 0⟩
  obtain ⟨-, hends', -⟩ := walk_exact lasso ⟨.young 1, 2⟩
  refine ⟨by decide, ?_, by decide, hends'.1 ⟨5, by decide⟩⟩
  intro n
  refine (length_walk_le lasso n _).antisymm (Nat.le_of_not_lt fun hlt => ?_)
  exact hends.1 ⟨n, hlt⟩ hround

end Tenure.Heap
