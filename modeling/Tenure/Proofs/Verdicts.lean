/-
  Tenure — when a verifier has a verdict.

  The verifiers collect all of a walk before they look at how long it is, so they have a verdict as long
  as no walk that they make comes back to a cell.  The numbers of a list are told from its iteration, and
  the last number of a machine word has no successor: a list of that iteration cannot be checked.

  * `Concludes`: a check ends with a verdict.
  * `Filler.product_lt_of_block`, `Filler.product_lt_of_walkAll`: no position is so far behind that the
    product with it does not fit a word.
  * `verifyCells_eq_error_iff`: when the numbers of a list cannot be told.
  * `Heap.Checkable`: what it takes to check one list; `verifyList_eq_intact_iff`: the lists that pass.
  * `concludes_verifyLists_iff`: of several lists, only those matter whose turn comes.
  * `verdicts_given_iff`: when the verifiers have a verdict, and what else they may come to.
-/
import Tenure.Proofs.CellAccount
import Tenure.Proofs.RetainedLists
import Tenure.Proofs.Walks

namespace Tenure

/-- A verifier has found the structure intact, or something wrong with it. -/
def Verdict.Final (v : Verdict) : Prop := v = .intact ∨ ∃ finding, v = .corrupted finding

theorem Verdict.final_intact : Verdict.intact.Final := Or.inl rfl

theorem Verdict.final_corrupted (finding : Corruption) : (Verdict.corrupted finding).Final :=
  Or.inr ⟨finding, rfl⟩

theorem Verdict.final_iff {v : Verdict} : v.Final ↔ v ≠ .endless := by
  cases v <;> simp [Final]

/-- A check that may fault ends with a verdict. -/
def Concludes (r : Except Fault Verdict) : Prop := ∃ v, r = .ok v ∧ v.Final

theorem concludes_ok_iff {v : Verdict} : Concludes (.ok v) ↔ v.Final := by simp [Concludes]

theorem not_concludes_endless : ¬ Concludes (.ok .endless) := by simp [Concludes, Verdict.Final]

theorem not_concludes_error {fault : Fault} : ¬ Concludes (.error fault) := by simp [Concludes]

/-! ## The numbers of a list -/

/-- The product of which a number is mixed fits a word at the positions of a block, which is filled. -/
theorem Filler.product_lt_of_block {head : Address} {length position : Nat} {block : List Address}
    (hb : head.block length = .ok block) (hposition : position < block.length) :
    position * 31 < Word.limit := by
  obtain ⟨-, hsum⟩ := (Address.getElem?_block hb).2 position _ (List.getElem?_eq_getElem hposition)
  have hlt := block[position].position_lt
  have hlimit : Address.limit * 31 < Word.limit := by decide
  omega

/-- It fits as well at the positions of a walk that ends, which is checked. -/
theorem Filler.product_lt_of_walkAll {h : Heap} {list : Address} {cells : List Address} {position : Nat}
    (hw : h.walkAll list = some cells) (hposition : position < cells.length) :
    position * 31 < Word.limit := by
  have hrevisits : ¬ h.Revisits list := fun hr => by
    rw [Heap.walkAll_eq_none_iff.2 hr] at hw
    cases hw
  obtain ⟨-, hcells⟩ := Option.ite_none_right_eq_some.1 hw
  obtain rfl := Option.some.inj hcells
  have hle := Heap.length_le_limit (Heap.nodup_walk hrevisits (h.cellCount + 1)) fun _ =>
    Heap.contains_of_mem_walk
  have hlimit : (Address.limit + Address.limit) * 31 < Word.limit := by decide
  omega

/-- The number at a position cannot be told if it is mixed from an iteration without a successor. -/
theorem Filler.element_eq_error_iff {length iteration position : Nat} {fault : Fault} :
    element length iteration position = .error fault ↔
      position + 1 ≠ length ∧ Word.limit ≤ iteration + 1 ∧ fault = .additionOverflow := by
  by_cases hlast : position + 1 = length
  · simp [element, hlast]
  by_cases hword : iteration + 1 < Word.limit
  · obtain ⟨x, hx⟩ := exists_element hword length position
    simp [hx, Nat.not_le.2 hword]
  · have hmixed : element length iteration position = .error .additionOverflow := by
      rw [element, if_neg hlast, mixed, Word.add, if_neg hword]
      rfl
    simp [hmixed, hlast, Nat.not_lt.1 hword, eq_comm]

namespace Heap

/-- One list can be checked: the walk along it ends, and if it has the right length its numbers can be
    told. -/
def Checkable (h : Heap) (length : Nat) (spine : Address) (iteration : Nat) : Prop :=
  ∀ c list, h.get? spine = some c → c.car = .ref list → ¬ h.Revisits list ∧
    ∀ cells, h.walkAll list = some cells → cells.length = length → 2 ≤ length →
      iteration + 1 < Word.limit

variable {h : Heap} {length iteration : Nat} {spine list : Address} {c : Cell}

theorem checkable_iff (hc : h.get? spine = some c) (hcar : c.car = .ref list) :
    h.Checkable length spine iteration ↔ ¬ h.Revisits list ∧
      ∀ cells, h.walkAll list = some cells → cells.length = length → 2 ≤ length →
        iteration + 1 < Word.limit := by
  constructor
  · intro hs
    exact hs c list hc hcar
  · intro hlist c' list' hc' hcar'
    cases hc.symm.trans hc'
    cases hcar.symm.trans hcar'
    exact hlist

end Heap

namespace RetainedLists

variable {h : Heap} {length iteration position : Nat} {spine list : Address} {c : Cell}
  {cells ps : List Address} {es : List (Address × Nat)} {fault : Fault}

/-! ## One list -/

/-- A fault of the check is that of the number at one of the positions. -/
theorem exists_position_of_error (herror : verifyCells h length iteration position ps = .error fault) :
    ∃ i < ps.length, Filler.element length iteration (position + i) = .error fault := by
  induction ps generalizing position with
  | nil => cases herror
  | cons p ps ih =>
    cases hx : Filler.element length iteration position with
    | error _ =>
      rw [verifyCells, hx] at herror
      cases herror
      exact ⟨0, Nat.succ_pos _, hx⟩
    | ok x =>
      rw [verifyCells, hx, ok_bind] at herror
      split at herror
      · obtain ⟨i, hi, hfault⟩ := ih herror
        exact ⟨i + 1, Nat.succ_lt_succ hi, by rwa [Nat.add_right_comm] at hfault⟩
      · cases herror

/-- **A list of the right length** can be checked unless it has two cells or more and an iteration
    without a successor. -/
theorem verifyCells_eq_error_iff (hlength : cells.length = length) :
    verifyCells h length iteration 0 cells = .error fault ↔
      2 ≤ length ∧ Word.limit ≤ iteration + 1 ∧ fault = .additionOverflow := by
  constructor
  · intro herror
    obtain ⟨i, hi, hfault⟩ := exists_position_of_error herror
    obtain ⟨hlast, hword, rfl⟩ := Filler.element_eq_error_iff.1 hfault
    exact ⟨by omega, hword, rfl⟩
  · rintro ⟨htwo, hword, rfl⟩
    -- the first position is not the last one
    obtain ⟨p, rest, rfl⟩ := List.exists_cons_of_length_pos (l := cells) (by omega)
    have hfirst := Filler.element_eq_error_iff.2
      ⟨show 0 + 1 ≠ length by omega, hword, rfl⟩
    rw [verifyCells, hfirst]
    rfl

theorem fills_of_verifyCells (hok : verifyCells h length iteration position ps = .ok none) :
    h.Fills length iteration position ps := by
  induction ps generalizing position with
  | nil => trivial
  | cons p ps ih =>
    obtain ⟨x, hx, hok⟩ := bind_eq_ok_iff.1 hok
    split at hok
    · rename_i hcar
      refine ⟨?_, ih hok⟩
      cases hc : h.get? p with
      | none =>
        rw [hc] at hcar
        cases hcar
      | some c =>
        rw [hc, Option.getD_some] at hcar
        exact ⟨c, x, rfl, hx, Slot.int?_eq_some_iff.1 hcar⟩
    · cases hok

/-- The verdict on cells of which one may differ. -/
def verdictOf : Option Corruption → Verdict
  | some finding => .corrupted finding
  | none => .intact

theorem final_verdictOf (r : Option Corruption) : (verdictOf r).Final := by
  cases r with
  | none => exact Verdict.final_intact
  | some finding => exact Verdict.final_corrupted finding

/-- **What the check of one list comes to.** -/
theorem verifyList_cases (h : Heap) (length iteration : Nat) (spine : Address) :
    ((∀ c list, h.get? spine = some c → c.car ≠ .ref list) ∧
      verifyList h length iteration spine = .ok (.corrupted .retainedListLost)) ∨
    ∃ c list, h.get? spine = some c ∧ c.car = .ref list ∧
      (h.walkAll list = none ∧ verifyList h length iteration spine = .ok .endless ∨
        ∃ cells, h.walkAll list = some cells ∧
          (cells.length ≠ length ∧ verifyList h length iteration spine =
              .ok (.corrupted (.listLength iteration cells.length length)) ∨
            cells.length = length ∧ verifyList h length iteration spine =
              (verifyCells h length iteration 0 cells).map verdictOf)) := by
  unfold verifyList
  cases href : ((h.get? spine).getD .blank).car.ref? with
  | none =>
    refine Or.inl ⟨fun c list hc hcar => ?_, rfl⟩
    rw [hc, Option.getD_some, hcar] at href
    cases href
  | some list =>
    obtain ⟨c, hc, hcar⟩ : ∃ c, h.get? spine = some c ∧ c.car = .ref list := by
      cases hc : h.get? spine with
      | none =>
        rw [hc] at href
        cases href
      | some c =>
        rw [hc] at href
        exact ⟨c, rfl, Slot.ref?_eq_some_iff.1 href⟩
    refine Or.inr ⟨c, list, hc, hcar, ?_⟩
    dsimp only
    cases hwalk : h.walkAll list with
    | none => exact Or.inl ⟨rfl, rfl⟩
    | some cells =>
      refine Or.inr ⟨cells, rfl, ?_⟩
      by_cases hlength : cells.length = length
      · refine Or.inr ⟨hlength, (if_neg (not_not.2 hlength)).trans ?_⟩
        rcases verifyCells h length iteration 0 cells with _ | _ | _ <;> rfl
      · exact Or.inl ⟨hlength, if_pos hlength⟩

/-- **The check of one list** ends with a verdict exactly if the list can be checked. -/
theorem concludes_verifyList_iff :
    Concludes (verifyList h length iteration spine) ↔ h.Checkable length spine iteration := by
  rcases verifyList_cases h length iteration spine with
    ⟨hnone, heq⟩ | ⟨c, list, hc, hcar, ⟨hwalk, heq⟩ | ⟨cells, hwalk, ⟨hlength, heq⟩ | ⟨hlength, heq⟩⟩⟩
  · rw [heq]
    exact iff_of_true (concludes_ok_iff.2 (Verdict.final_corrupted _)) fun c list hc hcar =>
      absurd hcar (hnone c list hc)
  all_goals rw [heq, Heap.checkable_iff hc hcar, ← Heap.walkAll_eq_none_iff, hwalk]
  · exact iff_of_false not_concludes_endless fun hcheck => hcheck.1 rfl
  · refine iff_of_true (concludes_ok_iff.2 (Verdict.final_corrupted _)) ⟨nofun, ?_⟩
    rintro _ ⟨⟩ heq
    exact absurd heq hlength
  · cases hcells : verifyCells h length iteration 0 cells with
    | error fault =>
      obtain ⟨htwo, hword, -⟩ := (verifyCells_eq_error_iff hlength).1 hcells
      refine iff_of_false not_concludes_error fun hcheck => ?_
      exact absurd (hcheck.2 cells rfl hlength htwo) (Nat.not_lt.2 hword)
    | ok r =>
      refine iff_of_true (concludes_ok_iff.2 (final_verdictOf r)) ⟨nofun, fun _ _ _ htwo => ?_⟩
      by_contra hword
      have herror := (verifyCells_eq_error_iff (h := h) hlength).2 ⟨htwo, Nat.not_lt.1 hword, rfl⟩
      cases hcells.symm.trans herror

/-- **The lists that pass** are those with the numbers of their iteration. -/
theorem verifyList_eq_intact_iff :
    verifyList h length iteration spine = .ok .intact ↔ h.Hangs length spine iteration := by
  refine ⟨fun hintact => ?_, verifyList_of_hangs⟩
  rcases verifyList_cases h length iteration spine with
    ⟨-, heq⟩ | ⟨c, list, hc, hcar, ⟨-, heq⟩ | ⟨cells, hwalk, ⟨-, heq⟩ | ⟨hlength, heq⟩⟩⟩
  all_goals rw [heq] at hintact
  · cases hintact
  · cases hintact
  · cases hintact
  · rcases hcells : verifyCells h length iteration 0 cells with fault | _ | finding
    all_goals rw [hcells] at hintact
    · cases hintact
    · exact ⟨c, list, hc, hcar, cells, hwalk, hlength, fills_of_verifyCells hcells⟩
    · cases hintact

theorem eq_additionOverflow_of_verifyList (herror : verifyList h length iteration spine = .error fault) :
    fault = .additionOverflow := by
  rcases verifyList_cases h length iteration spine with
    ⟨-, heq⟩ | ⟨c, list, hc, hcar, ⟨-, heq⟩ | ⟨cells, hwalk, ⟨-, heq⟩ | ⟨hlength, heq⟩⟩⟩
  all_goals rw [heq] at herror
  · cases herror
  · cases herror
  · cases herror
  · cases hcells : verifyCells h length iteration 0 cells with
    | error _ =>
      rw [hcells] at herror
      cases herror
      exact ((verifyCells_eq_error_iff hlength).1 hcells).2.2
    | ok r =>
      rw [hcells] at herror
      cases herror

/-! ## Several lists -/

/-- Each list whose turn comes, because those before it are intact, can be checked. -/
def CheckableInTurn (h : Heap) (length : Nat) (es : List (Address × Nat)) : Prop :=
  ∀ before spine iteration behind, es = before ++ (spine, iteration) :: behind →
    (∀ e ∈ before, h.Hangs length e.1 e.2) → h.Checkable length spine iteration

theorem checkableInTurn_nil : CheckableInTurn h length [] := fun before _ _ _ hes => by
  cases before <;> cases hes

theorem checkableInTurn_cons_iff {e : Address × Nat} : CheckableInTurn h length (e :: es) ↔
    h.Checkable length e.1 e.2 ∧ (h.Hangs length e.1 e.2 → CheckableInTurn h length es) := by
  constructor
  · intro hall
    refine ⟨hall [] e.1 e.2 es rfl nofun, fun hfirst before spine iteration behind hes hbefore => ?_⟩
    refine hall (e :: before) spine iteration behind (by rw [hes, List.cons_append]) ?_
    exact List.forall_mem_cons.2 ⟨hfirst, hbefore⟩
  · rintro ⟨hfirst, hrest⟩ before spine iteration behind hes hbefore
    cases before with
    | nil =>
      cases hes
      exact hfirst
    | cons b before =>
      cases hes
      obtain ⟨hb, hbefore⟩ := List.forall_mem_cons.1 hbefore
      exact hrest hb before spine iteration behind rfl hbefore

/-- **The check of several lists** ends with a verdict exactly if those whose turn comes can be
    checked. -/
theorem concludes_verifyLists_iff :
    Concludes (verifyLists h length es) ↔ CheckableInTurn h length es := by
  induction es with
  | nil => exact iff_of_true (concludes_ok_iff.2 Verdict.final_intact) checkableInTurn_nil
  | cons e es ih =>
    rw [checkableInTurn_cons_iff, ← ih, ← concludes_verifyList_iff, ← verifyList_eq_intact_iff]
    obtain ⟨spine, iteration⟩ := e
    rw [verifyLists]
    cases hfirst : verifyList h length iteration spine with
    | error fault => exact iff_of_false not_concludes_error fun hboth => not_concludes_error hboth.1
    | ok v =>
      rw [ok_bind]
      cases v with
      | intact => simp [concludes_ok_iff, Verdict.final_intact]
      | corrupted finding =>
        have hfinal := concludes_ok_iff.2 (Verdict.final_corrupted finding)
        exact iff_of_true hfinal ⟨hfinal, fun hintact => by cases hintact⟩
      | endless => exact iff_of_false not_concludes_endless fun hboth => not_concludes_endless hboth.1

theorem eq_additionOverflow_of_verifyLists (herror : verifyLists h length es = .error fault) :
    fault = .additionOverflow := by
  induction es with
  | nil => cases herror
  | cons e es ih =>
    obtain ⟨spine, iteration⟩ := e
    rw [verifyLists] at herror
    cases hfirst : verifyList h length iteration spine with
    | error _ =>
      rw [hfirst] at herror
      cases herror
      exact eq_additionOverflow_of_verifyList hfirst
    | ok v =>
      rw [hfirst, ok_bind] at herror
      cases v with
      | intact => exact ih herror
      | corrupted finding => cases herror
      | endless => cases herror

/-- The check of a chain can be carried through: the walk along its spine ends, and if it has the right
    length each list whose turn comes can be checked. -/
structure Followable (chain : RetainedLists) (h : Heap) (length : Nat) : Prop where
  spine : ∀ head, chain.head? h = some head → ¬ h.Revisits head
  lists : ∀ head spines, chain.head? h = some head → h.walkAll head = some spines →
    spines.length = chain.size →
      CheckableInTurn h length (spines.zip chain.iterations.toList.reverse)

theorem followable_iff {chain : RetainedLists} {head : Address} (hhead : chain.head? h = some head) :
    chain.Followable h length ↔ ¬ h.Revisits head ∧
      ∀ spines, h.walkAll head = some spines → spines.length = chain.size →
        CheckableInTurn h length (spines.zip chain.iterations.toList.reverse) := by
  constructor
  · intro hf
    exact ⟨hf.spine head hhead, fun spines => hf.lists head spines hhead⟩
  · rintro ⟨hspine, hlists⟩
    constructor
    · rintro p hp
      cases hhead.symm.trans hp
      exact hspine
    · rintro p spines hp
      cases hhead.symm.trans hp
      exact hlists spines

/-- **What the check of a chain comes to.** -/
theorem verify_cases (chain : RetainedLists) (h : Heap) (length : Nat) :
    (chain.head? h = none ∧ Concludes (chain.verify h length)) ∨
    ∃ head, chain.head? h = some head ∧
      (h.walkAll head = none ∧ chain.verify h length = .ok .endless ∨
        ∃ spines, h.walkAll head = some spines ∧
          (spines.length ≠ chain.size ∧ Concludes (chain.verify h length) ∨
            spines.length = chain.size ∧ chain.verify h length =
              verifyLists h length (spines.zip chain.iterations.toList.reverse))) := by
  unfold verify
  cases hhead : chain.head? h with
  | none =>
    refine Or.inl ⟨rfl, ?_⟩
    simp only [List.zip_nil_left, verifyLists]
    split
    · exact concludes_ok_iff.2 (Verdict.final_corrupted _)
    · exact concludes_ok_iff.2 Verdict.final_intact
  | some head =>
    refine Or.inr ⟨head, rfl, ?_⟩
    dsimp only
    cases hwalk : h.walkAll head with
    | none => exact Or.inl ⟨rfl, rfl⟩
    | some spines =>
      refine Or.inr ⟨spines, rfl, ?_⟩
      by_cases hlength : spines.length = chain.size
      · exact Or.inr ⟨hlength, if_neg (not_not.2 hlength)⟩
      · refine Or.inl ⟨hlength, ?_⟩
        dsimp only
        rw [if_pos hlength]
        exact concludes_ok_iff.2 (Verdict.final_corrupted _)

/-- **The check of a chain** ends with a verdict exactly if it can be carried through. -/
theorem concludes_verify_iff {chain : RetainedLists} :
    Concludes (chain.verify h length) ↔ chain.Followable h length := by
  rcases verify_cases chain h length with
    ⟨hhead, hc⟩ | ⟨head, hhead, ⟨hwalk, heq⟩ | ⟨spines, hwalk, ⟨hlength, hc⟩ | ⟨hlength, heq⟩⟩⟩
  · exact iff_of_true hc ⟨by simp [hhead], by simp [hhead]⟩
  all_goals rw [followable_iff hhead, ← Heap.walkAll_eq_none_iff, hwalk]
  · rw [heq]
    exact iff_of_false not_concludes_endless fun hf => hf.1 rfl
  · refine iff_of_true hc ⟨nofun, ?_⟩
    rintro _ ⟨⟩ hsize
    exact absurd hsize hlength
  · rw [heq, concludes_verifyLists_iff]
    constructor
    · intro hturn
      refine ⟨nofun, ?_⟩
      rintro _ ⟨⟩ -
      exact hturn
    · exact fun hf => hf.2 spines rfl hlength

theorem eq_additionOverflow_of_verify {chain : RetainedLists}
    (herror : chain.verify h length = .error fault) : fault = .additionOverflow := by
  rcases verify_cases chain h length with
    ⟨-, hc⟩ | ⟨_, -, ⟨-, heq⟩ | ⟨_, -, ⟨-, hc⟩ | ⟨-, heq⟩⟩⟩
  · rw [herror] at hc
    exact absurd hc not_concludes_error
  · rw [heq] at herror
    cases herror
  · rw [herror] at hc
    exact absurd hc not_concludes_error
  · exact eq_additionOverflow_of_verifyLists (heq.symm.trans herror)

end RetainedLists

/-! ## Both verifiers -/

/-- **The check of the sample structure** has a verdict exactly if the walk along its list ends. -/
theorem Sample.final_verify_iff {d : Sample} {s : Store} : (d.verify s).Final ↔
    ∀ head, d.head? s.heap = some head → ¬ s.heap.Revisits head := by
  rw [Verdict.final_iff]
  unfold verify
  dsimp only
  cases hhead : d.head? s.heap with
  | none => simp
  | some head =>
    simp only [Option.some.injEq, forall_eq']
    rw [← Heap.walkAll_eq_none_iff]
    cases hwalk : s.heap.walkAll head with
    | none => simp
    | some cells =>
      refine iff_of_true ?_ nofun
      dsimp only
      repeat' split
      all_goals nofun

/-- Once a walk has ended it does not depend on how far it is followed. -/
theorem Heap.walk_eq_of_walkAll {h : Heap} {p : Address} {cells : List Address} {n : Nat}
    (hcells : h.walkAll p = some cells) (hn : cells.length ≤ n) : h.walk n p = cells := by
  obtain ⟨hle, hcells⟩ := Option.ite_none_right_eq_some.1 hcells
  obtain rfl := Option.some.inj hcells
  set limit := h.cellCount + 1 with hlimit
  have hend : h.visit? p (h.walk limit p).length = none := by
    have hnone : (h.walk limit p)[(h.walk limit p).length]? = none := List.getElem?_length _
    rwa [getElem?_walk, if_pos (by omega)] at hnone
  refine List.ext_getElem? fun i => ?_
  by_cases hi : i < (h.walk limit p).length
  · rw [getElem?_walk, getElem?_walk, if_pos (by omega), if_pos (by omega)]
  · have hnone := visit?_eq_none_of_le hend (Nat.not_lt.1 hi)
    rw [getElem?_walk, getElem?_walk, hnone, ite_self, ite_self]

/-- **When the verifiers have a verdict.**  That of the sample structure has one exactly if the walk along
    the list comes back to no cell; that of a chain exactly if the check can be carried through, and
    else it never ends or an iteration has no successor.  A walk that comes back never ends, and any
    other is collected as a whole, from cells that there are. -/
theorem verdicts_given_iff (d : Sample) (chain : RetainedLists) (s : Store) (length : Nat) :
    ((d.verify s).Final ↔ ∀ head, d.head? s.heap = some head → ¬ s.heap.Revisits head) ∧
    (Concludes (chain.verify s.heap length) ↔ chain.Followable s.heap length) ∧
    (∀ fault, chain.verify s.heap length = .error fault → fault = .additionOverflow) ∧
    ∀ p, (s.heap.Revisits p ↔ ∀ n, (s.heap.walk n p).length = n) ∧
      ∀ cells, s.heap.walkAll p = some cells →
        (∀ q ∈ cells, s.heap.contains q) ∧ ∀ n, cells.length ≤ n → s.heap.walk n p = cells := by
  refine ⟨Sample.final_verify_iff, RetainedLists.concludes_verify_iff,
    fun fault => RetainedLists.eq_additionOverflow_of_verify, fun p => ⟨?_, fun cells hcells => ?_⟩⟩
  · refine ⟨Heap.length_walk_of_revisits, fun hall => ?_⟩
    by_contra hp
    obtain ⟨n, hn⟩ := Heap.exists_end_iff.2 hp
    exact hn.ne (hall n)
  · refine ⟨fun q hq => ?_, fun n hn => Heap.walk_eq_of_walkAll hcells hn⟩
    exact Heap.contains_of_mem_walk (Heap.walk_eq_of_walkAll hcells le_rfl ▸ hq)

/-- A store with a list that comes back to a cell, and one on the spine of which no lists hang. -/
def crooked : Store where
  heap :=
    { Heap.lasso with
      roots := { entries := [(⟨0⟩, ⟨.young 1, 0⟩), (⟨1⟩, ⟨.young 1, 2⟩)], next := 2 } }

theorem verdicts_given_iff_crooked :
    ¬ (Sample.verify ⟨⟨0⟩, ⟨1⟩, ⟨1⟩, ⟨0⟩, ⟨0⟩, ⟨1⟩⟩ crooked).Final ∧
      RetainedLists.Followable ⟨some ⟨1⟩, #[4, 5]⟩ crooked.heap 3 := by
  obtain ⟨hsample, hchain, -⟩ :=
    verdicts_given_iff ⟨⟨0⟩, ⟨1⟩, ⟨1⟩, ⟨0⟩, ⟨0⟩, ⟨1⟩⟩ ⟨some ⟨1⟩, #[4, 5]⟩ crooked 3
  refine ⟨fun hfinal => ?_, hchain.1 ⟨.corrupted .retainedListLost, by rfl, Verdict.final_corrupted _⟩⟩
  refine hsample.1 hfinal ⟨.young 1, 0⟩ (by rfl) (Heap.walkAll_eq_none_iff.1 (by rfl))

/-- A new store. -/
def blankStore : Store where
  heap := .make .standard 0

/-- **A loop** in the list of the sample structure is followed for ever, and so is one in the spine of a
    chain.  A list of the last iteration cannot be checked. -/
theorem not_verdicts_given :
    (∃ symbols d s s', Sample.build .empty blankStore = .ok (symbols, .ok d) s ∧
      d.head? s.heap = some ⟨.young 0, 0⟩ ∧
      Store.write ⟨.young 0, 0⟩ .cdr (.ref ⟨.young 0, 0⟩) s = .ok () s' ∧
      d.verify s' = .endless ∧ ∀ n, (s'.heap.walk n ⟨.young 0, 0⟩).length = n) ∧
    ∃ p s chain s', Store.allocateLinked 2 blankStore = .ok (.ok p) s ∧
      (RetainedLists.empty.push p (Word.limit - 1)).run s = .ok (.ok chain) s' ∧
      chain.verify s'.heap 2 = .error .additionOverflow ∧
      chain.head? s'.heap = some ⟨.young 0, 2⟩ ∧
      ∃ s'', Store.write ⟨.young 0, 2⟩ .cdr (.ref ⟨.young 0, 2⟩) s' = .ok () s'' ∧
        chain.verify s''.heap 2 = .ok .endless := by
  constructor
  · have hlooped : Action.passes (Sample.build .empty) (fun r s => Action.accepts (fun d =>
        d.head? s.heap = some ⟨.young 0, 0⟩ &&
          Action.passes (Store.write ⟨.young 0, 0⟩ .cdr (.ref ⟨.young 0, 0⟩)) (fun _ s' =>
            d.verify s' = .endless ∧ s'.heap.walkAll ⟨.young 0, 0⟩ = none) s) r.2)
        blankStore = true := by
      simp only [Sample.build, Sample.assemble, Sample.rooted, Sample.share, Store.allocate,
        Store.makeRoom, Action.get_eq, Action.modify_eq, Attempt.get_eq]
      cbv
    obtain ⟨⟨symbols, _⟩, s, hbuild, hlooped⟩ := Action.exists_of_passes hlooped
    obtain ⟨d, rfl, hlooped⟩ := Action.exists_of_accepts hlooped
    obtain ⟨hhead, hlooped⟩ := Bool.and_eq_true_iff.1 hlooped
    obtain ⟨_, s', hwrite, hlooped⟩ := Action.exists_of_passes hlooped
    obtain ⟨hverify, hwalk⟩ := of_decide_eq_true hlooped
    exact ⟨symbols, d, s, s', hbuild, of_decide_eq_true hhead, hwrite, hverify,
      Heap.length_walk_of_revisits (Heap.walkAll_eq_none_iff.1 hwalk)⟩
  · have hlooped : Action.passes (Store.allocateLinked 2) (fun a s => Action.accepts (fun p =>
        Action.passes (RetainedLists.empty.push p (Word.limit - 1)).run (fun r s' =>
          Action.accepts (fun chain =>
            (chain.verify s'.heap 2 = .error .additionOverflow ∧
              chain.head? s'.heap = some ⟨.young 0, 2⟩) &&
            Action.passes (Store.write ⟨.young 0, 2⟩ .cdr (.ref ⟨.young 0, 2⟩)) (fun _ s'' =>
              chain.verify s''.heap 2 = .ok .endless) s') r) s) a) blankStore = true := by
      simp only [RetainedLists.push, RetainedLists.spineFor, Store.allocateLinked, Store.allocate,
        Store.makeRoom, Action.get_eq, Action.modify_eq, Attempt.get_eq, Attempt.modify_eq]
      cbv
    obtain ⟨_, s, halloc, hlooped⟩ := Action.exists_of_passes hlooped
    obtain ⟨p, rfl, hlooped⟩ := Action.exists_of_accepts hlooped
    obtain ⟨_, s', hpush, hlooped⟩ := Action.exists_of_passes hlooped
    obtain ⟨chain, rfl, hlooped⟩ := Action.exists_of_accepts hlooped
    obtain ⟨hchain, hlooped⟩ := Bool.and_eq_true_iff.1 hlooped
    obtain ⟨herror, hhead⟩ := of_decide_eq_true hchain
    obtain ⟨_, s'', hwrite, hendless⟩ := Action.exists_of_passes hlooped
    exact ⟨p, s, chain, s', halloc, hpush, herror, hhead, s'', hwrite, of_decide_eq_true hendless⟩

end Tenure
