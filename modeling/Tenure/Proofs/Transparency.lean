/-
  Tenure — collections are not seen.

  A client that uses only pointers obtained since the last collection sees the same
  in a store as in an ideal heap, which never collects.

  * `Session.Sound`, `Sound.step`, `Runs.sound`: what every session keeps to.
  * `session_transparent`: what a client sees.
-/
import Tenure.Proofs.Simulation

namespace Tenure

namespace Session

variable {σ σ' : Session}

/-- The pointers that a client holds stand for the ideal cells that it takes them for. -/
structure Sound (σ : Session) : Prop where
  tame : σ.store.Tame
  mirrors : ∃ R, Mirrors R σ.store.heap σ.ideal ∧ ∀ x ∈ σ.held, R x.1 x.2

/-- What was held before is held still, unless cells were moved, and so is what was obtained. -/
theorem forall_held_after {store : Store} {ideal : Ideal} {obtained : List (Address × Nat)}
    {R R' : Address → Nat → Prop} (hheld : ∀ x ∈ σ.held, R x.1 x.2)
    (hout : σ.store.Outlives store R R') (hobtained : ∀ x ∈ obtained, R' x.1 x.2) :
    ∀ x ∈ (σ.after store ideal obtained).held, R' x.1 x.2 := by
  intro x hx
  rcases List.mem_append.1 hx with hx | hx
  · split at hx
    · rename_i hsame
      exact hout hsame _ _ (hheld x hx)
    · cases hx
  · exact hobtained x hx

theorem Sound.step (hσ : σ.Sound) {op : Operation (Address × Nat)} (h : σ.step? op = some σ') :
    σ'.Sound := by
  obtain ⟨R, hm, hheld⟩ := hσ.mirrors
  unfold step? at h
  split at h
  · rename_i hop
    have hop' : ∀ x ∈ op.pointers, R x.1 x.2 := fun x hx => hheld x (hop x hx)
    split at h
    · rename_i obtained store hp
      cases h
      obtain ⟨htame, -, hok⟩ := Store.follows_perform hσ.tame hm hop' hp
      obtain ⟨R', hm', hout, hpairs⟩ := hok obtained rfl
      refine ⟨htame, R', hm', forall_held_after hheld hout ?_⟩
      intro x hx
      exact (List.forall₂_iff_zip.1 hpairs).2 hx
    · rename_i error store hp
      cases h
      obtain ⟨htame, herror, -⟩ := Store.follows_perform hσ.tame hm hop' hp
      obtain ⟨R', hm', hout⟩ := herror error rfl
      exact ⟨htame, R', hm', forall_held_after hheld hout fun x hx => nomatch hx⟩
    · cases h
  · cases h

theorem Runs.sound (h : σ.Runs) : σ.Sound := by
  induction h with
  | @start settings registry heap values journal hmake hvalues =>
    have hheap : heap = .make settings registry := by
      unfold Heap.make? at hmake
      split at hmake
      · cases hmake
        rfl
      · cases hmake
    subst hheap
    refine ⟨⟨Heap.wellFormed_of_make? hmake, ⟨fun c hc => ?_, fun c hc => ?_⟩, rfl, hvalues⟩,
      _, Mirrors.empty settings registry, fun x hx => nomatch hx⟩
    · cases Array.not_mem_empty c hc
    · cases Array.not_mem_empty c hc
  | outside journal _ hvalues ih =>
    obtain ⟨⟨hwf, hclean, hreleased, -⟩, hmirrors⟩ := ih
    exact ⟨⟨hwf, hclean, hreleased, hvalues⟩, hmirrors⟩
  | step op _ hstep ih => exact ih.step hstep

theorem Runs.foldlM {ops : List (Operation (Address × Nat))} (h : σ.Runs)
    (hops : ops.foldlM step? σ = some σ') : σ'.Runs := by
  induction ops generalizing σ with
  | nil =>
    cases hops
    exact h
  | cons op ops ih =>
    obtain ⟨τ, hstep, hrest⟩ := Option.bind_eq_some_iff.1 hops
    exact ih (h.step op hstep) hrest

/-- **Collections are not seen.**  At the end of every path from a root the store and the ideal heap
    have the same, two paths end in the same cell in both or in neither, and with the pointers
    that it holds a client gets an answer and as many pointers from both, unless a counter runs
    over. -/
theorem session_transparent (h : σ.Runs) :
    (∀ id path half, σ.store.heap.read id path half = σ.ideal.read id path half) ∧
      (∀ id id' path path',
        (∃ p, σ.store.heap.reach id path = some p ∧ σ.store.heap.reach id' path' = some p) ↔
          ∃ n, σ.ideal.reach id path = some n ∧ σ.ideal.reach id' path' = some n) ∧
      ∀ op : Operation (Address × Nat), (∀ x ∈ op.pointers, x ∈ σ.held) →
        (∃ r store, σ.store.perform (op.map (·.1)) = .ok r store ∧
            ∀ obtained, r = .ok obtained →
              obtained.length = (σ.ideal.perform (op.map (·.2))).2.length) ∨
          ∃ store, σ.store.perform (op.map (·.1)) = .error .additionOverflow store := by
  obtain ⟨htame, R, hm, hheld⟩ := h.sound
  refine ⟨hm.read_eq, hm.meet_iff, ?_⟩
  intro op hop
  have hop' : ∀ x ∈ op.pointers, R x.1 x.2 := fun x hx => hheld x (hop x hx)
  refine (htame.answers_perform hm hop').imp_left fun ⟨r, store, hp⟩ => ⟨r, store, hp, ?_⟩
  rintro obtained rfl
  obtain ⟨R', -, -, hpairs⟩ := (Store.follows_perform htame hm hop' hp).ok obtained rfl
  exact hpairs.length_eq

/-- A client with room for two young cells. -/
def fresh : Session where
  store :=
    { heap := .make
        { youngCapacity := 2, oldCapacity := 2, oldHighWater := 0, promotionThreshold := 2 } 0 }

/-- Ties two cells into a ring, asks twice for a third cell, the first time in vain, and refers
    from it to the ring. -/
def ring : List (Operation (Address × Nat)) :=
  let last : Address × Nat := (⟨.young 0, 1⟩, 1)
  let third : Address × Nat := (⟨.young 0, 0⟩, 2)
  let moved : Address × Nat := (⟨.old, 1⟩, 1)
  [.allocateLinked 2, .addRoot last, .write last .cdr (.ref (⟨.young 0, 0⟩, 0)), .allocate 1,
    .allocate 1, .readRoot ⟨0⟩, .write third .car (.ref moved), .addRoot third]

theorem runs_fresh : fresh.Runs :=
  .start #[] (show Heap.make? fresh.store.heap.settings 0 = .ok fresh.store.heap from rfl)
    fun _ h => nomatch h

theorem session_transparent_ring : ∃ σ, ring.foldlM step? fresh = some σ ∧ σ.Runs ∧
    σ.store.heap.counters.youngCollections = 2 ∧
      (∀ id path half, σ.store.heap.read id path half = σ.ideal.read id path half) ∧
      ∃ p, σ.store.heap.reach ⟨1⟩ [.car] = some p ∧ σ.store.heap.reach ⟨0⟩ [.cdr, .cdr] = some p := by
  have hcheck : (ring.foldlM step? fresh).any (fun σ =>
      decide (σ.store.heap.counters.youngCollections = 2 ∧ σ.ideal.reach ⟨1⟩ [.car] = some 1 ∧
        σ.ideal.reach ⟨0⟩ [.cdr, .cdr] = some 1)) = true := by
    simp only [ring, List.foldlM_cons, List.foldlM_nil, step?, Operation.map, Store.perform,
      Store.allocate, Store.allocateLinked, Store.makeRoom, Action.get_eq, Action.modify_eq]
    cbv
  obtain ⟨σ, hσ, hσ'⟩ := (Option.any_eq_true _ _).1 hcheck
  obtain ⟨hcollections, hcar, hcdr⟩ := of_decide_eq_true hσ'
  obtain ⟨hread, hmeet, -⟩ := session_transparent (runs_fresh.foldlM hσ)
  exact ⟨σ, hσ, runs_fresh.foldlM hσ, hcollections, hread, (hmeet _ _ _ _).2 ⟨1, hcar, hcdr⟩⟩

end Session

end Tenure
