/-
  Tenure — what an allocation does.

  * `Store.Tidied`: nothing had to be done to make room, or a collection was run.
  * `makeRoom_of_room`, `makeRoom_of_full`, `allocate_of_size`, `allocate_of_fits`: the branches of a
    request.
  * `makeRoom_outcomes`, `allocate_cases`, `allocateLinked_cases`: what making room and an allocation
    come to.
-/
import Tenure.Proofs.Addresses
import Tenure.Proofs.Answers
import Tenure.Store.Allocate

namespace Tenure

/-- The addresses of a block, one after the other. -/
theorem Address.getElem?_block {p : Address} {count : Nat} {block : List Address}
    (h : p.block count = .ok block) :
    block.length = count ∧
      ∀ (k : Nat) (q : Address), block[k]? = some q → q.space = p.space ∧ q.position = p.position + k := by
  have key : ∀ {ks : List Nat} {qs : List Address}, ks.mapM p.offset = .ok qs →
      qs.length = ks.length ∧ ∀ (j : Nat) (q : Address), qs[j]? = some q → ∃ k, ks[j]? = some k ∧
        p.offset k = .ok q := by
    intro ks
    induction ks with
    | nil =>
      intro qs hqs
      cases hqs
      simp
    | cons k ks ih =>
      intro qs hqs
      rw [List.mapM_cons] at hqs
      obtain ⟨q, hq, hqs⟩ := bind_eq_ok_iff.1 hqs
      obtain ⟨rest, hrest, hqs⟩ := bind_eq_ok_iff.1 hqs
      cases hqs
      obtain ⟨hlen, hget⟩ := ih hrest
      refine ⟨by simp [hlen], ?_⟩
      intro j r hr
      cases j with
      | zero =>
        cases hr
        exact ⟨k, rfl, hq⟩
      | succ j => exact hget j r hr
  obtain ⟨hlen, hget⟩ := key h
  refine ⟨by simpa using hlen, ?_⟩
  intro k q hq
  obtain ⟨k', hk', hoffset⟩ := hget k q hq
  obtain ⟨hk, rfl⟩ := List.getElem?_eq_some_iff.1 hk'
  obtain ⟨sum, hsum, hmake⟩ := bind_eq_ok_iff.1 hoffset
  obtain ⟨hspace, hpos⟩ := make_eq_ok_iff.1 hmake
  rw [hpos, ← (Word.add_eq_ok_iff.1 hsum).1, List.getElem_range]
  exact ⟨hspace, rfl⟩

theorem Address.exists_block {p : Address} {count : Nat} (h : p.position + count ≤ limit) :
    ∃ block, p.block count = .ok block := by
  have key : ∀ ks : List Nat, (∀ k ∈ ks, k < count) → ∃ qs, ks.mapM p.offset = .ok qs := by
    intro ks
    induction ks with
    | nil => exact fun _ => ⟨[], rfl⟩
    | cons k ks ih =>
      intro hks
      obtain ⟨qs, hqs⟩ := ih fun k' hk' => hks k' (List.mem_cons_of_mem _ hk')
      have hk := hks k List.mem_cons_self
      obtain ⟨q, hq⟩ := exists_make (s := p.space) (i := p.position + k) (by omega)
      have hsum : Word.add p.position k = .ok (p.position + k) := by
        refine Word.add_eq_ok_iff.2 ⟨rfl, ?_⟩
        have : limit < Word.limit := by decide
        omega
      have hoffset : p.offset k = .ok q := by rw [offset, hsum, ok_bind, hq]
      exact ⟨q :: qs, by rw [List.mapM_cons, hoffset, ok_bind, hqs, ok_bind]; rfl⟩
  exact key _ fun k hk => List.mem_range.1 hk

namespace Store

variable {s s' : Store} {count : Nat}

/-- A store after an attempt to make room: as it was, or as a collection left it, however that one
    ended. -/
def Tidied (s s' : Store) : Prop :=
  (s'.heap = s.heap ∧ s'.values = s.values) ∨
    ∃ event result t, (s.log event).collect = .ok result t ∧ s'.heap = t.heap ∧
      s'.values = t.values

theorem makeRoom_of_room (hroom : count ≤ s.heap.room) : s.makeRoom count = .ok (.ok ()) s := by
  change (ite _ _ _ : Action Store (Except HeapError Unit)) s = _
  exact congrFun (if_pos hroom) s

theorem makeRoom_of_full (hfull : s.heap.room < count) :
    s.makeRoom count =
      match (s.log (.fullFor count)).collect with
      | .error fault t => .error fault t
      | .ok (.error error) t => .ok (.error error) t
      | .ok (.ok _) t =>
        if count ≤ t.heap.room then .ok (.ok ()) t
        else .ok (.error (.youngExhausted count t.heap.room))
          (t.log (.refused (.youngExhausted count t.heap.room))) := by
  change (ite _ _ _ : Action Store (Except HeapError Unit)) s = _
  rw [if_neg (by omega)]
  change (collect >>= _) (s.log (.fullFor count)) = _
  simp only [bind, EStateM.bind]
  cases (s.log (.fullFor count)).collect with
  | error fault t => rfl
  | ok result t =>
    cases result with
    | error error => rfl
    | ok report =>
      change (ite _ _ _ : Action Store (Except HeapError Unit)) t = _
      simp only
      split
      · rfl
      · rfl

/-- All that an attempt to make room can come to. -/
theorem makeRoom_outcomes {r : Except HeapError Unit} (h : s.makeRoom count = .ok r s') :
    (count ≤ s.heap.room ∧ r = .ok () ∧ s' = s) ∨
      s.heap.room < count ∧ ∃ result t, (s.log (.fullFor count)).collect = .ok result t ∧
        ((∃ error, result = .error error ∧ r = .error error ∧ s' = t) ∨
          (∃ report, result = .ok report ∧ r = .ok () ∧ count ≤ t.heap.room ∧ s' = t) ∨
          ∃ report, result = .ok report ∧ r = .error (.youngExhausted count t.heap.room) ∧
            s' = t.log (.refused (.youngExhausted count t.heap.room))) := by
  by_cases hroom : count ≤ s.heap.room
  · cases h.symm.trans (makeRoom_of_room hroom)
    exact Or.inl ⟨hroom, rfl, rfl⟩
  have hfull := Nat.not_le.1 hroom
  rw [makeRoom_of_full hfull] at h
  cases hc : (s.log (.fullFor count)).collect with
  | error fault t => cases hc ▸ h
  | ok result t =>
    rw [hc] at h
    refine Or.inr ⟨hfull, result, t, rfl, ?_⟩
    cases result with
    | error error =>
      cases h
      exact Or.inl ⟨error, rfl, rfl, rfl⟩
    | ok report =>
      simp only at h
      split at h
      · rename_i hready
        cases h
        exact Or.inr (Or.inl ⟨report, rfl, rfl, hready, rfl⟩)
      · cases h
        exact Or.inr (Or.inr ⟨report, rfl, rfl, rfl⟩)

theorem makeRoom_cases {r : Except HeapError Unit} (h : s.makeRoom count = .ok r s') :
    s.Tidied s' ∧ (r = .ok () → count ≤ s'.heap.room) := by
  rcases makeRoom_outcomes h with ⟨hroom, -, rfl⟩ |
    ⟨-, result, t, hc, ⟨_, -, rfl, rfl⟩ | ⟨_, -, -, hready, rfl⟩ | ⟨_, -, rfl, rfl⟩⟩
  · exact ⟨Or.inl ⟨rfl, rfl⟩, fun _ => hroom⟩
  · exact ⟨Or.inr ⟨_, _, _, hc, rfl, rfl⟩, nofun⟩
  · exact ⟨Or.inr ⟨_, _, _, hc, rfl, rfl⟩, fun _ => hready⟩
  · exact ⟨Or.inr ⟨_, _, _, hc, rfl, rfl⟩, nofun⟩

/-- The block is too large for every heap, or empty. -/
theorem allocate_of_size (hsize : count = 0 ∨ s.heap.settings.youngCapacity < count) :
    s.allocate count =
      .ok (.error (.invalidAllocationSize count s.heap.settings.youngCapacity)) s := by
  unfold allocate
  refine Action.bind_eq_ok_iff.2 ⟨s, s, rfl, ?_⟩
  simp only [if_pos hsize]
  rfl

theorem allocate_of_fits (hcount : 0 < count) (hfits : count ≤ s.heap.settings.youngCapacity) :
    s.allocate count = (do
      match ← makeRoom count with
      | .error error => return .error error
      | .ok () => return .ok (← grow count) : Action Store (Except HeapError Address)) s := by
  have hsize : ¬ (count = 0 ∨ s.heap.settings.youngCapacity < count) := by omega
  change (ite _ _ _ : Action Store (Except HeapError Address)) s = _
  exact congrFun (if_neg hsize) s

/-- An allocation makes room, and then it is refused or appends a block of blank cells. -/
theorem allocate_cases {r : Except HeapError Address} (h : s.allocate count = .ok r s') :
    ∃ t, s.Tidied t ∧
      ((∃ error, r = .error error ∧ s' = t) ∨
        ∃ heap p, r = .ok p ∧ 0 < count ∧ count ≤ t.heap.room ∧
          t.heap.grow count = .ok (heap, p) ∧ s' = { t with heap }) := by
  by_cases hsize : count = 0 ∨ s.heap.settings.youngCapacity < count
  · cases h.symm.trans (allocate_of_size hsize)
    exact ⟨s, Or.inl ⟨rfl, rfl⟩, Or.inl ⟨_, rfl, rfl⟩⟩
  obtain ⟨hzero, hlarge⟩ := not_or.1 hsize
  rw [allocate_of_fits (Nat.pos_of_ne_zero hzero) (Nat.not_lt.1 hlarge)] at h
  obtain ⟨result, t, hroom, h⟩ := Action.bind_eq_ok_iff.1 h
  obtain ⟨htidied, hroom⟩ := makeRoom_cases hroom
  cases result with
  | error error =>
    cases h
    exact ⟨s', htidied, Or.inl ⟨_, rfl, rfl⟩⟩
  | ok _ =>
    obtain ⟨p, s₁, hgrow, h⟩ := Action.bind_eq_ok_iff.1 h
    cases h
    unfold grow at hgrow
    split at hgrow
    · rename_i heap p hg
      cases hgrow
      exact ⟨t, htidied, Or.inr ⟨heap, p, rfl, Nat.pos_of_ne_zero hzero, hroom rfl, hg, rfl⟩⟩
    · cases hgrow

/-- A list is a block whose cells are linked afterwards. -/
theorem allocateLinked_cases {r : Except HeapError Address} (h : s.allocateLinked count = .ok r s') :
    ∃ r₀ t, s.allocate count = .ok r₀ t ∧
      ((∃ error, r₀ = .error error ∧ r = .error error ∧ s' = t) ∨
        ∃ p block, r₀ = .ok p ∧ r = .ok p ∧ p.block count = .ok block ∧
          s' = t.mapHeap (·.link block)) := by
  unfold allocateLinked at h
  obtain ⟨result, t, ha, h⟩ := Action.bind_eq_ok_iff.1 h
  refine ⟨result, t, ha, ?_⟩
  cases result with
  | error error =>
    cases h
    exact Or.inl ⟨_, rfl, rfl, rfl⟩
  | ok p =>
    obtain ⟨block, t', hb, hl⟩ := Action.bind_eq_ok_iff.1 h
    obtain ⟨hblock, rfl⟩ := Action.lift_eq_ok_iff.1 hb
    obtain ⟨_, t'', hlink, hr⟩ := Action.bind_eq_ok_iff.1 hl
    cases hlink
    cases hr
    exact Or.inr ⟨p, block, rfl, rfl, hblock, rfl⟩

end Store

end Tenure
