/-
  Tenure — what emptying a young buffer does.

  * `visit_cases`: all that can happen to one cell.
  * `run_buffers`: where the cells of the buffer go, in order, and how many.
  * `resolve_run`: to which buffer each of them goes; all other addresses are left alone.
  * `carries_run`: the marked cells are carried over by the moves.
  * `exists_run`: no fault arises while all addresses fit.
-/
import Tenure.Evacuation
import Tenure.Proofs.Addresses
import Tenure.Proofs.Answers
import Tenure.Proofs.CarriedCells

namespace Tenure

/-- A marked cell of the young buffer after it has left it. -/
def Cell.evacuated (threshold : Nat) (c : Cell) : Cell :=
  if c.isDue threshold then c.survive.promote else c.survive

namespace Evacuation

variable {threshold : Nat} {side : Semispace} {index : Nat} {c : Cell} {e e' : Evacuation}

/-- The cell at an address in the buffers that receive the cells. -/
def get? (side : Semispace) (e : Evacuation) (q : Address) : Option Cell :=
  if q.space = side.other.space then e.young[q.position]?
  else if q.space = .old then e.old[q.position]?
  else none

/-- The first address behind the cells that were received by the buffer to which a cell goes. -/
def Awaits (side : Semispace) (e : Evacuation) (q : Address) : Bool → Prop
  | true => q.space = .old ∧ q.position = e.old.size
  | false => q.space = side.other.space ∧ q.position = e.young.size

/-- A cell goes to the buffer that is there for it. -/
def receive (e : Evacuation) (threshold : Nat) (c : Cell) (moves : Relocation) : Evacuation :=
  if c.isDue threshold then
    { e with old := e.old.push c.survive.promote, moves, promoted := e.promoted + 1 }
  else { e with young := e.young.push c.survive, moves, survivors := e.survivors + 1 }

@[simp] theorem moves_receive (e : Evacuation) (threshold : Nat) (c : Cell) (moves : Relocation) :
    (e.receive threshold c moves).moves = moves := by
  unfold receive
  split <;> rfl

/-- A cell without a mark stays behind.  Any other moves to the end of a buffer. -/
theorem visit_cases (h : e.visit threshold side index c = .ok e') :
    (c.isMarked = false ∧ e' = { e with garbage := e.garbage.push c }) ∨
      (c.isMarked = true ∧ ∃ source target : Address,
        (source.space = side.space ∧ source.position = index) ∧
          e.Awaits side target (c.isDue threshold) ∧ ¬ e.moves.contains source ∧
            e' = e.receive threshold c (e.moves.store source target)) := by
  cases hm : c.isMarked with
  | false =>
    simp only [visit, hm, Bool.not_false, if_true] at h
    cases h
    exact Or.inl ⟨rfl, rfl⟩
  | true =>
    refine Or.inr ⟨rfl, ?_⟩
    simp only [visit, hm, Bool.not_true, Bool.false_eq_true, if_false] at h
    obtain ⟨source, hs, h⟩ := bind_eq_ok_iff.1 h
    -- whether the cell is due decides which buffer is asked for the place
    cases hd : c.isDue threshold with
    | true =>
      simp only [hd, if_true] at h
      obtain ⟨target, ht, h⟩ := bind_eq_ok_iff.1 h
      split at h
      · cases h
      · rename_i hr
        cases h
        obtain ⟨hfresh, rfl⟩ := Relocation.record_eq_ok_iff.1 hr
        refine ⟨source, target, Address.young_eq_ok_iff.1 hs, Address.make_eq_ok_iff.1 ht, hfresh, ?_⟩
        rw [receive, if_pos hd]
    | false =>
      simp only [hd, Bool.false_eq_true, if_false] at h
      obtain ⟨target, ht, h⟩ := bind_eq_ok_iff.1 h
      split at h
      · cases h
      · rename_i hr
        cases h
        obtain ⟨hfresh, rfl⟩ := Relocation.record_eq_ok_iff.1 hr
        refine ⟨source, target, Address.young_eq_ok_iff.1 hs, Address.young_eq_ok_iff.1 ht, hfresh, ?_⟩
        rw [receive, if_neg (by simp [hd])]

/-! ## The buffers -/

/-- The cells that stay young. -/
def staying (threshold : Nat) (cells : List Cell) : List Cell :=
  (cells.filter fun c => c.isMarked && !c.isDue threshold).map Cell.survive

/-- The cells that become old. -/
def leaving (threshold : Nat) (cells : List Cell) : List Cell :=
  (cells.filter fun c => c.isMarked && c.isDue threshold).map fun c => c.survive.promote

/-- Every marked cell stays young or becomes old. -/
theorem length_staying_add_leaving (threshold : Nat) (cells : List Cell) :
    (staying threshold cells).length + (leaving threshold cells).length =
      cells.countP (·.isMarked) := by
  rw [staying, leaving, List.length_map, List.length_map]
  induction cells with
  | nil => rfl
  | cons c rest ih => cases hm : c.isMarked <;> cases hd : c.isDue threshold <;> simp [hm, hd] <;> omega

theorem run_cons_eq_ok {rest : List Cell} (h : run threshold side (c :: rest) index e = .ok e') :
    ∃ e₁, e.visit threshold side index c = .ok e₁ ∧
      run threshold side rest (index + 1) e₁ = .ok e' :=
  bind_eq_ok_iff.1 h

/-- The cells of the buffer go in order, each to the end of the buffer that is there for it. -/
theorem run_buffers {cells : List Cell} (h : run threshold side cells index e = .ok e') :
    e'.young = e.young ++ (staying threshold cells).toArray ∧
      e'.old = e.old ++ (leaving threshold cells).toArray ∧
      e'.garbage = e.garbage ++ (cells.filter fun c => !c.isMarked).toArray ∧
      e'.survivors = e.survivors + (staying threshold cells).length ∧
      e'.promoted = e.promoted + (leaving threshold cells).length := by
  induction cells generalizing index e with
  | nil =>
    cases h
    simp [staying, leaving]
  | cons c rest ih =>
    obtain ⟨e₁, hv, hr⟩ := run_cons_eq_ok h
    obtain ⟨hy, ho, hg, hs, hp⟩ := ih hr
    rw [hy, ho, hg, hs, hp]
    rcases visit_cases hv with ⟨hm, rfl⟩ | ⟨hm, source, target, -, -, -, rfl⟩
    · simp [staying, leaving, hm]
    · by_cases hd : c.isDue threshold
      · simp [staying, leaving, receive, hm, hd]; omega
      · simp [staying, leaving, receive, hm, hd]; omega

/-! ## The moves -/

/-- The buffer to which a marked cell goes. -/
def destination (threshold : Nat) (side : Semispace) (c : Cell) : Space :=
  if c.isDue threshold then .old else side.other.space

theorem Awaits.space {q : Address} (h : e.Awaits side q (c.isDue threshold)) :
    q.space = destination threshold side c := by
  unfold destination
  cases hd : c.isDue threshold with
  | true => simpa [hd] using (hd ▸ h).1
  | false => simpa [hd] using (hd ▸ h).1

/-- An address names the cell at a place of the buffer. -/
def Names (side : Semispace) (cells : List Cell) (index : Nat) (p : Address) (c : Cell) : Prop :=
  p.space = side.space ∧ ∃ j, p.position = index + j ∧ cells[j]? = some c

theorem names_cons_iff {rest : List Cell} {p : Address} {d : Cell} :
    Names side (c :: rest) index p d ↔
      (p.space = side.space ∧ p.position = index ∧ c = d) ∨ Names side rest (index + 1) p d := by
  constructor
  · rintro ⟨hs, j, hpos, hj⟩
    cases j with
    | zero => exact Or.inl ⟨hs, hpos, Option.some.inj hj⟩
    | succ j => exact Or.inr ⟨hs, j, by omega, hj⟩
  · rintro (⟨hs, hpos, rfl⟩ | ⟨hs, j, hpos, hj⟩)
    · exact ⟨hs, 0, hpos, rfl⟩
    · exact ⟨hs, j + 1, by omega, hj⟩

/-- Where the addresses lead after the buffer has been emptied: those of marked cells to the buffer
    for which the cell is bound, and all others to where they led before. -/
theorem resolve_run {cells : List Cell} (h : run threshold side cells index e = .ok e')
    (p : Address) :
    (∀ c, Names side cells index p c → c.isMarked = true →
        (e'.moves.resolve p).space = destination threshold side c) ∧
      ((∀ c, Names side cells index p c → c.isMarked = false) →
        e'.moves.resolve p = e.moves.resolve p) := by
  induction cells generalizing index e with
  | nil =>
    cases h
    refine ⟨?_, fun _ => rfl⟩
    rintro c ⟨-, j, -, hj⟩
    cases hj
  | cons c rest ih =>
    obtain ⟨e₁, hv, hr⟩ := run_cons_eq_ok h
    obtain ⟨hmoved, hstay⟩ := ih hr
    -- the cells that follow lie behind this one
    have hbehind : p.position = index → ∀ d, ¬ Names side rest (index + 1) p d := by
      rintro hpos d ⟨-, j, hj, -⟩
      omega
    rcases visit_cases hv with ⟨hm, rfl⟩ | ⟨hm, source, target, ⟨hs, hpos⟩, hq, -, rfl⟩
    · constructor
      · intro d hd hdm
        rcases names_cons_iff.1 hd with ⟨-, -, rfl⟩ | hd
        · rw [hm] at hdm
          cases hdm
        · exact hmoved d hd hdm
      · intro hnone
        exact hstay fun d hd => hnone d (names_cons_iff.2 (Or.inr hd))
    · rw [moves_receive, Relocation.resolve_store] at hstay
      constructor
      · intro d hd hdm
        rcases names_cons_iff.1 hd with ⟨hps, hppos, rfl⟩ | hd
        · have hp : source = p := Address.ext_position (hs.trans hps.symm) (hpos.trans hppos.symm)
          rw [hstay fun d hd => absurd hd (hbehind hppos d), if_pos hp]
          exact hq.space
        · exact hmoved d hd hdm
      · intro hnone
        have hp : source ≠ p := by
          rintro rfl
          have := hnone c (names_cons_iff.2 (Or.inl ⟨hs, hpos, rfl⟩))
          rw [hm] at this
          cases this
        rw [hstay fun d hd => hnone d (names_cons_iff.2 (Or.inr hd)), if_neg hp]

theorem Awaits.get?_eq_none {due : Bool} {q : Address} (h : e.Awaits side q due) :
    e.get? side q = none := by
  cases due with
  | true => simp [get?, h.1, h.2, Semispace.space]
  | false => simp [get?, h.1, h.2]

/-- What is read after a cell was received. -/
theorem get?_receive {q a : Address} {moves : Relocation}
    (h : e.Awaits side q (c.isDue threshold)) :
    (e.receive threshold c moves).get? side a =
      if a = q then some (c.evacuated threshold) else e.get? side a := by
  have key : a = q ↔ a.space = q.space ∧ a.position = q.position :=
    ⟨fun h => by rw [h]; exact ⟨rfl, rfl⟩, fun h => Address.ext_position h.1 h.2⟩
  unfold receive Cell.evacuated
  cases hd : c.isDue threshold with
  | true =>
    rw [hd] at h
    obtain ⟨hs, hp⟩ := h
    by_cases ha : a.space = .old
    · simp [get?, key, hs, hp, ha, Array.getElem?_push, Semispace.space]
    · simp [get?, key, hs, ha]
  | false =>
    rw [hd] at h
    obtain ⟨hs, hp⟩ := h
    by_cases ha : a.space = side.other.space
    · simp [get?, key, hs, hp, ha, Array.getElem?_push]
    · simp [get?, key, hs, ha]

/-- The cells that are carried over by the time the cell at `index` is looked at. -/
def keptBefore (side : Semispace) (source : Address → Option Cell) (index : Nat) : Set Address :=
  {p | (source p).isSome ∧ (p.space = side.space → p.position < index)}

/-- What `source` is to say of the cells from `index` on. -/
def Expects (threshold : Nat) (side : Semispace) (source : Address → Option Cell)
    (cells : List Cell) (index : Nat) : Prop :=
  ∀ j c, cells[j]? = some c → ∀ p, p.space = side.space → p.position = index + j →
    source p = if c.isMarked then some (c.evacuated threshold) else none

theorem keptBefore_succ {source : Address → Option Cell} {p : Address} (hp : p.space = side.space)
    (hpos : p.position = index) {d : Cell} (hs : source p = some d) :
    keptBefore side source (index + 1) = insert p (keptBefore side source index) := by
  ext q
  constructor
  · rintro ⟨hq, hlt⟩
    by_cases hqp : q = p
    · exact Or.inl hqp
    · refine Or.inr ⟨hq, ?_⟩
      intro hqs
      have hne : q.position ≠ p.position := fun h =>
        hqp (Address.ext_position (hqs.trans hp.symm) h)
      have := hlt hqs
      omega
  · rintro (rfl | ⟨hq, hlt⟩)
    · exact ⟨by rw [hs]; rfl, fun _ => by omega⟩
    · exact ⟨hq, fun hqs => by have := hlt hqs; omega⟩

theorem keptBefore_succ_of_none {source : Address → Option Cell}
    (hs : ∀ p, p.space = side.space → p.position = index → source p = none) :
    keptBefore side source (index + 1) = keptBefore side source index := by
  ext q
  constructor
  · rintro ⟨hq, hlt⟩
    refine ⟨hq, ?_⟩
    intro hqs
    have := hlt hqs
    have hne : q.position ≠ index := fun h => by rw [hs q hqs h] at hq; cases hq
    omega
  · rintro ⟨hq, hlt⟩
    exact ⟨hq, fun hqs => by have := hlt hqs; omega⟩

theorem Expects.head {source : Address → Option Cell} {rest : List Cell}
    (h : Expects threshold side source (c :: rest) index) {p : Address} (hp : p.space = side.space)
    (hpos : p.position = index) :
    source p = if c.isMarked then some (c.evacuated threshold) else none :=
  h 0 c rfl p hp hpos

theorem Expects.tail {source : Address → Option Cell} {rest : List Cell}
    (h : Expects threshold side source (c :: rest) index) :
    Expects threshold side source rest (index + 1) := fun j d hd p hp hpos =>
  h (j + 1) d hd p hp (by omega)

/-- **What the moves do**: whatever was carried over before still is, and so is every marked cell
    of the buffer. -/
theorem carries_run {source : Address → Option Cell} {cells : List Cell}
    (h : run threshold side cells index e = .ok e') (hx : Expects threshold side source cells index)
    (hc : Carries (keptBefore side source index) source e.moves.resolve (e.get? side)) :
    Carries (keptBefore side source (index + cells.length)) source e'.moves.resolve
      (e'.get? side) := by
  induction cells generalizing index e with
  | nil =>
    cases h
    exact hc
  | cons c rest ih =>
    obtain ⟨e₁, hv, hr⟩ := run_cons_eq_ok h
    rw [List.length_cons, show index + (rest.length + 1) = index + 1 + rest.length by omega]
    refine ih hr hx.tail ?_
    rcases visit_cases hv with ⟨hm, rfl⟩ | ⟨hm, p, q, ⟨hp, hpos⟩, hq, -, rfl⟩
    · rw [keptBefore_succ_of_none fun p hp hpos => by rw [hx.head hp hpos, hm]; rfl]
      exact hc
    · have hs : source p = some (c.evacuated threshold) := by rw [hx.head hp hpos, hm]; rfl
      rw [keptBefore_succ hp hpos hs, moves_receive]
      refine hc.insert (fun hin => ?_) hs hq.get?_eq_none (by simp) (fun a ha => ?_) ?_ fun a ha => ?_
      · have := hin.2 hp
        omega
      · rw [Relocation.resolve_store, if_neg (Ne.symm ha)]
      · rw [get?_receive hq, if_pos rfl]
      · rw [get?_receive hq, if_neg ha]

/-! ## Faults -/

theorem visit_unmarked (hm : c.isMarked = false) :
    e.visit threshold side index c = .ok { e with garbage := e.garbage.push c } := by
  simp only [visit, hm, Bool.not_false, if_true]

theorem visit_marked (hm : c.isMarked = true) {p q : Address} (hp : p.space = side.space)
    (hpos : p.position = index) (hq : e.Awaits side q (c.isDue threshold))
    (hfresh : ¬ e.moves.contains p) :
    e.visit threshold side index c = .ok (e.receive threshold c (e.moves.store p q)) := by
  have hr : Relocation.record p q e.moves = .ok () (e.moves.store p q) :=
    Relocation.record_eq_ok_iff.2 ⟨hfresh, rfl⟩
  simp only [visit, hm, Bool.not_true, Bool.false_eq_true, if_false,
    Address.young_eq_ok_iff.2 ⟨hp, hpos⟩, ok_bind]
  cases hd : c.isDue threshold with
  | true =>
    rw [hd] at hq
    have ht : Address.old e.old.size = .ok q := Address.make_eq_ok_iff.2 hq
    simp only [if_true, ht, ok_bind, hr, receive, hd]
  | false =>
    rw [hd] at hq
    have ht : Address.young side.other.number e.young.size = .ok q := Address.young_eq_ok_iff.2 hq
    simp only [Bool.false_eq_true, if_false, ht, ok_bind, hr, receive, hd]

theorem exists_awaits (h : if due then e.old.size < Address.limit else e.young.size < Address.limit) :
    ∃ q, e.Awaits side q due := by
  cases due with
  | true =>
    obtain ⟨q, hq⟩ := Address.exists_make (s := .old) h
    exact ⟨q, Address.make_eq_ok_iff.1 hq⟩
  | false =>
    obtain ⟨q, hq⟩ := Address.exists_young side.other h
    exact ⟨q, Address.young_eq_ok_iff.1 hq⟩

/-- No fault arises while the buffers can be named and no cell of this one has moved. -/
theorem exists_run {cells : List Cell} (hfrom : index + cells.length ≤ Address.limit)
    (hyoung : e.young.size + (staying threshold cells).length ≤ Address.limit)
    (hold : e.old.size + (leaving threshold cells).length ≤ Address.limit)
    (hfresh : ∀ p, p.space = side.space → index ≤ p.position → ¬ e.moves.contains p) :
    ∃ e', run threshold side cells index e = .ok e' := by
  induction cells generalizing index e with
  | nil => exact ⟨e, rfl⟩
  | cons c rest ih =>
    rw [List.length_cons] at hfrom
    cases hm : c.isMarked with
    | false =>
      obtain ⟨e', he'⟩ := @ih (index + 1) { e with garbage := e.garbage.push c }
        (by omega) (by simpa [staying, hm] using hyoung) (by simpa [leaving, hm] using hold)
        fun p hp hpos => hfresh p hp (by omega)
      exact ⟨e', bind_eq_ok_iff.2 ⟨_, visit_unmarked hm, he'⟩⟩
    | true =>
      obtain ⟨p, hp⟩ := Address.exists_young side (show index < Address.limit by omega)
      obtain ⟨hps, hpos⟩ := Address.young_eq_ok_iff.1 hp
      obtain ⟨q, hq⟩ : ∃ q, e.Awaits side q (c.isDue threshold) := by
        refine exists_awaits ?_
        cases hd : c.isDue threshold with
        | true => simp [leaving, hm, hd] at hold ⊢; omega
        | false => simp [staying, hm, hd] at hyoung ⊢; omega
      have hv := visit_marked hm hps hpos hq (hfresh p hps (by omega))
      have hyoung' : (e.receive threshold c (e.moves.store p q)).young.size +
          (staying threshold rest).length ≤ Address.limit := by
        cases hd : c.isDue threshold <;> simp [receive, staying, hm, hd] at hyoung ⊢ <;> omega
      have hold' : (e.receive threshold c (e.moves.store p q)).old.size +
          (leaving threshold rest).length ≤ Address.limit := by
        cases hd : c.isDue threshold <;> simp [receive, leaving, hm, hd] at hold ⊢ <;> omega
      have hfresh' : ∀ a, a.space = side.space → index + 1 ≤ a.position →
          ¬ (e.receive threshold c (e.moves.store p q)).moves.contains a := by
        intro a ha hapos hcon
        rw [moves_receive, Relocation.contains_store] at hcon
        rcases hcon with rfl | hcon
        · omega
        · exact hfresh a ha (by omega) hcon
      obtain ⟨e', he'⟩ := ih (by omega) hyoung' hold' hfresh'
      exact ⟨e', bind_eq_ok_iff.2 ⟨_, hv, he'⟩⟩

end Evacuation

end Tenure
