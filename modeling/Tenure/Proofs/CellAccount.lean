/-
  Tenure — cells are accounted for.

  Every cell that was ever allocated is young or old, or has been reported as reclaimed.  The totals
  of a heap are the sums over the reports of its collections, those that a request for a block runs
  among them.

  * `Counters.summing`: the totals over some outcomes of collections.
  * `Store.Runs`: the collections that a request for a block runs.
  * `Store.Reckons`: what operations do to the account; `Step.reckons`: every operation of a client
    does this, `reckons_of_steps`: and so does every run.
  * `cells_reckoned`: the account of a heap, at any time.
-/
import Tenure.Proofs.RootOwners
import Tenure.Proofs.Totals

namespace Tenure

/-! ## Totals -/

namespace Counters

/-- The reports among some outcomes. -/
def reports (outcomes : List (Except HeapError CollectionSummary)) : List CollectionSummary :=
  outcomes.filterMap Except.toOption

/-- The totals over some outcomes. -/
def summing (outcomes : List (Except HeapError CollectionSummary)) : Counters where
  youngCollections := (reports outcomes).length
  oldCollections := (reports outcomes).countP (·.oldCollected)
  copied := ((reports outcomes).map (·.survivors)).sum
  promoted := ((reports outcomes).map (·.promoted)).sum
  reclaimed := ((reports outcomes).map (·.reclaimed)).sum
  oldReclaimed := ((reports outcomes).map (·.oldReclaimed)).sum
  failedCollections := outcomes.countP (!·.isOk)

variable {outcomes : List (Except HeapError CollectionSummary)}

theorem summing_append (r : Except HeapError CollectionSummary) :
    summing (outcomes ++ [r]) = (summing outcomes).after r := by
  cases r with
  | ok report =>
    have hreports : reports (outcomes ++ [.ok report]) = reports outcomes ++ [report] := by
      simp [reports, Except.toOption]
    have hold : (reports outcomes ++ [report]).countP (·.oldCollected) =
        if report.oldCollected then (reports outcomes).countP (·.oldCollected) + 1
        else (reports outcomes).countP (·.oldCollected) := by
      rw [List.countP_append, List.countP_singleton]
      split <;> rfl
    simp [summing, hreports, hold, after, recorded, Except.isOk, Except.toBool]
  | error error =>
    have hreports : reports (outcomes ++ [.error error]) = reports outcomes := by
      simp [reports, Except.toOption]
    simp [summing, hreports, after, abandoned, Except.isOk, Except.toBool]

/-- All collections that were counted. -/
def attempts (c : Counters) : Nat := c.youngCollections + c.failedCollections

/-- One outcome after the other. -/
theorem foldl_after (more : List (Except HeapError CollectionSummary)) :
    more.foldl after (summing outcomes) = summing (outcomes ++ more) := by
  induction more generalizing outcomes with
  | nil => rw [List.foldl_nil, List.append_nil]
  | cons r rest ih =>
    rw [List.foldl_cons, ← summing_append, ih, List.append_assoc, List.singleton_append]

theorem attempts_summing (outcomes : List (Except HeapError CollectionSummary)) :
    (summing outcomes).attempts = outcomes.length := by
  simp only [attempts, summing, reports, Except.isOk]
  induction outcomes with
  | nil => rfl
  | cons r rest ih =>
    cases r with
    | ok report =>
      simp [Except.toOption, Except.toBool] at ih ⊢
      omega
    | error error =>
      simp [List.filterMap_cons, Except.toOption, Except.toBool] at ih ⊢
      omega

end Counters

/-! ## Operations of a store -/

namespace Store

variable {s s' s'' : Store} {rs rs' : List (Except HeapError CollectionSummary)} {n n' count : Nat}

/-- The collections that a request for a block runs: one, if there is no room for a block that is not
    too large. -/
def Runs (s : Store) (count : Nat) (rs : List (Except HeapError CollectionSummary)) : Prop :=
  if count ≤ s.heap.room ∨ s.heap.settings.youngCapacity < count then rs = []
  else ∃ r u, (s.log (.fullFor count)).collect = .ok r u ∧ rs = [r]

/-- Some collections were run, and noted and counted, and some cells were appended. -/
structure Reckons (s : Store) (rs : List (Except HeapError CollectionSummary)) (n : Nat)
    (s' : Store) : Prop where
  outcomes : s'.outcomes = s.outcomes ++ rs
  counters : s'.heap.counters = rs.foldl Counters.after s.heap.counters
  accounted : s.heap.Clean → s'.heap.accounted = s.heap.accounted + n

namespace Reckons

theorem of_eq (houtcomes : s'.outcomes = s.outcomes) (hcounters : s'.heap.counters = s.heap.counters)
    (haccounted : s'.heap.accounted = s.heap.accounted) : s.Reckons [] 0 s' :=
  ⟨houtcomes.trans (List.append_nil _).symm, hcounters, fun _ => haccounted⟩

theorem trans (h : s.Reckons rs n s') (hclean : s.heap.Clean → s'.heap.Clean)
    (h' : s'.Reckons rs' n' s'') : s.Reckons (rs ++ rs') (n + n') s'' where
  outcomes := by rw [h'.outcomes, h.outcomes, List.append_assoc]
  counters := by rw [h'.counters, h.counters, List.foldl_append]
  accounted hs := by rw [h'.accounted (hclean hs), h.accounted hs, Nat.add_assoc]

end Reckons

theorem accounted_of_givesUp (h : s.GivesUp s') : s'.heap.accounted = s.heap.accounted := by
  obtain ⟨gone, hgone, -⟩ := h.heap
  rw [hgone]
  rfl

theorem reckons_release (s : Store) (v : ValueId) : s.Reckons [] 0 (s.release v) := by
  have hgives := givesUp_release s v
  refine .of_eq (outcomes_release s v) ?_ (accounted_of_givesUp hgives)
  obtain ⟨gone, hgone, -⟩ := hgives.heap
  rw [hgone]
  rfl

theorem reckons_log (s : Store) {event : Event} (h : event.outcome? = none) :
    s.Reckons [] 0 (s.log event) :=
  .of_eq (outcomes_log_of_none h) rfl rfl

theorem accounted_collect {r : Except HeapError CollectionSummary} (hclean : s.heap.Clean)
    (hc : s.collect = .ok r s') : s'.heap.accounted = s.heap.accounted := by
  obtain ⟨c, hheap, -⟩ := collect_cases hc
  obtain ⟨roots, hs'⟩ := exists_roots_of_collect hheap hc
  rw [hs']
  show c.heap.accounted = s.heap.accounted
  exact Heap.accounted_collects (Heap.collect_cases hheap).1 hclean (Heap.collects_of_collect hheap)

theorem reckons_collect {r : Except HeapError CollectionSummary} (hc : s.collect = .ok r s') :
    s.Reckons [r] 0 s' :=
  ⟨outcomes_collect hc, counters_collect hc, fun hclean => accounted_collect hclean hc⟩

theorem reckons_makeRoom {r : Except HeapError Unit} (hcount : count ≤ s.heap.settings.youngCapacity)
    (h : s.makeRoom count = .ok r s') : ∃ rs, s.Runs count rs ∧ s.Reckons rs 0 s' := by
  rcases makeRoom_outcomes h with ⟨hroom, -, rfl⟩ | ⟨hfull, result, t, hc, hends⟩
  · exact ⟨[], by rw [Runs, if_pos (Or.inl hroom)], .of_eq rfl rfl rfl⟩
  have hruns : ¬ (count ≤ s.heap.room ∨ s.heap.settings.youngCapacity < count) :=
    not_or.2 ⟨Nat.not_le.2 hfull, Nat.not_lt.2 hcount⟩
  have hcollect : s.Reckons [result] 0 t :=
    (reckons_log s rfl).trans (fun hs => hs) (reckons_collect hc)
  refine ⟨[result], by rw [Runs, if_neg hruns]; exact ⟨result, t, hc, rfl⟩, ?_⟩
  rcases hends with ⟨_, -, -, rfl⟩ | ⟨_, -, -, -, rfl⟩ | ⟨_, -, -, rfl⟩
  · exact hcollect
  · exact hcollect
  · obtain ⟨_, hkeeps⟩ := exists_keepsDangling hc
    exact hcollect.trans (fun _ => hkeeps.clean) (reckons_log t rfl)

theorem reckons_allocate {a : Except HeapError Address} (h : s.allocate count = .ok a s') :
    ∃ rs, s.Runs count rs ∧ s.Reckons rs (Tenant.granted count a) s' := by
  unfold allocate at h
  obtain ⟨s₀, t, hget, h⟩ := Action.bind_eq_ok_iff.1 h
  cases hget
  split at h
  · rename_i hsize
    cases h
    have hnone : count ≤ s.heap.room ∨ s.heap.settings.youngCapacity < count :=
      hsize.imp_left fun hzero : count = 0 => hzero.trans_le (Nat.zero_le _)
    exact ⟨[], by rw [Runs, if_pos hnone], .of_eq rfl rfl rfl⟩
  · rename_i hsize
    obtain ⟨result, t, hroom, h⟩ := Action.bind_eq_ok_iff.1 h
    obtain ⟨rs, hruns, hreckons⟩ := reckons_makeRoom (Nat.not_lt.1 (not_or.1 hsize).2) hroom
    refine ⟨rs, hruns, ?_⟩
    cases result with
    | error error =>
      cases h
      exact hreckons
    | ok _ =>
      obtain ⟨p, s₁, hgrow, h⟩ := Action.bind_eq_ok_iff.1 h
      cases h
      unfold grow at hgrow
      split at hgrow
      · rename_i heap p hg
        cases hgrow
        have hcounters : heap.counters = t.heap.counters := by
          obtain ⟨first, -, hg⟩ := bind_eq_ok_iff.1 hg
          cases hg
          rfl
        exact ⟨hreckons.outcomes, hcounters.trans hreckons.counters, fun hs => by
          rw [Heap.accounted_grow hg, hreckons.accounted hs]; rfl⟩
      · cases hgrow

theorem reckons_allocateLinked {a : Except HeapError Address} (h : s.allocateLinked count = .ok a s') :
    ∃ rs, s.Runs count rs ∧ s.Reckons rs (Tenant.granted count a) s' := by
  obtain ⟨a₀, t, ha, ⟨_, rfl, rfl, rfl⟩ | ⟨p, block, rfl, rfl, -, rfl⟩⟩ := allocateLinked_cases h
  · exact reckons_allocate ha
  · obtain ⟨rs, hruns, hreckons⟩ := reckons_allocate ha
    refine ⟨rs, hruns, hreckons.outcomes, ?_, fun hs => ?_⟩
    · exact (Heap.congr_link Heap.counters_put t.heap block).trans hreckons.counters
    · exact (Heap.congr_link Heap.accounted_put t.heap block).trans (hreckons.accounted hs)

end Store

/-! ## Clients -/

namespace Tenant

variable {r : Reserve} {t₀ t t' : Tenant}

/-- **The account of one operation.** -/
theorem Step.reckons (h : Step r t t') :
    ∃ rs n, t.store.Reckons rs n t'.store ∧ t'.allocated = t.allocated + n := by
  have hsame : ∀ {s' : Store}, t.store.Reckons [] 0 s' →
      ∃ rs n, t.store.Reckons rs n s' ∧ t.allocated = t.allocated + n := fun h => ⟨[], 0, h, rfl⟩
  cases h with
  | addRoot ha =>
    obtain ⟨-, rfl, rfl⟩ := Store.addRoot_eq_ok_iff.1 ha
    exact hsame (.of_eq rfl rfl rfl)
  | lease hl =>
    obtain ⟨-, rfl, rfl⟩ := Store.leaseRoot_eq_ok_iff.1 hl
    exact hsame (.of_eq rfl rfl rfl)
  | setRoot p hid => exact hsame (.of_eq rfl rfl rfl)
  | eraseRoot hid => exact hsame (.of_eq rfl rfl rfl)
  | dropLease hp => exact hsame (.of_eq rfl rfl rfl)
  | newValue name => exact hsame (.of_eq rfl rfl rfl)
  | openFile ho =>
    cases ho
    exact hsame (.of_eq (Store.outcomes_log_of_none (s := t.store) rfl) rfl rfl)
  | entrust name hp => exact hsame (.of_eq rfl rfl rfl)
  | retain hv hlive => exact hsame (.of_eq rfl rfl rfl)
  | release hv hp => exact hsame (Store.reckons_release _ _)
  | put hp hc hm hperm hcount =>
    exact hsame (.of_eq rfl (Heap.counters_put _ _ _) (Heap.accounted_put _ _ _))
  | allocate ha =>
    obtain ⟨rs, -, hrs⟩ := Store.reckons_allocate ha
    exact ⟨rs, _, hrs, rfl⟩
  | allocateLinked ha =>
    obtain ⟨rs, -, hrs⟩ := Store.reckons_allocateLinked ha
    exact ⟨rs, _, hrs, rfl⟩
  | collect hc => exact ⟨_, 0, Store.reckons_collect hc, rfl⟩
  | clearMarks => exact hsame (.of_eq rfl rfl (Heap.accounted_clearMarks _))

/-- The account of a whole run. -/
theorem reckons_of_steps (h : Relation.ReflTransGen (Step r) t t') :
    ∃ rs n, t.store.Reckons rs n t'.store ∧ t'.allocated = t.allocated + n := by
  induction h with
  | refl => exact ⟨[], 0, .of_eq rfl rfl rfl, rfl⟩
  | tail hrun hstep ih =>
    obtain ⟨rs, n, hrs, hn⟩ := ih
    obtain ⟨rs', n', hrs', hn'⟩ := hstep.reckons
    exact ⟨rs ++ rs', n + n', hrs.trans (clean_of_steps hrun) hrs', by omega⟩

/-- **Cells and collections are accounted for** at any time of a run that has begun with a new heap
    and in which the client has set no marks. -/
theorem cells_reckoned (h₀ : t₀.Fresh) (hrun : Relation.ReflTransGen (Step {}) t₀ t) :
    -- each cell that was allocated is there, or was reclaimed
    t.allocated = t.store.heap.occupancy.youngUsed + t.store.heap.occupancy.oldUsed +
        t.store.heap.counters.reclaimed + t.store.heap.counters.oldReclaimed ∧
      -- the totals are those of all collections, which the journal has noted
      t.store.heap.counters = .summing t.store.outcomes ∧
      (∀ a s', t.store.collect = .ok a s' → s'.outcomes = t.store.outcomes ++ [a]) ∧
      (∀ count a s', t.store.allocate count = .ok a s' ∨ t.store.allocateLinked count = .ok a s' →
        ∃ rs, t.store.Runs count rs ∧ s'.outcomes = t.store.outcomes ++ rs) ∧
      ∀ t', Step {} t t' → t'.store.heap.counters = t.store.heap.counters →
        t'.store.outcomes = t.store.outcomes := by
  obtain ⟨rs, n, hrs, hn⟩ := reckons_of_steps hrun
  have haccounted := hrs.accounted h₀.clean
  have houtcomes := hrs.outcomes
  have hcounters := hrs.counters
  obtain ⟨settings, registry, heap, hmake, rfl⟩ := h₀
  obtain rfl := Heap.eq_make_of_make? hmake
  have hsums : t.store.heap.counters = .summing t.store.outcomes := by
    rw [hcounters, houtcomes]
    exact @Counters.foldl_after [] rs
  refine ⟨?_, ?_, fun a s' hc => Store.outcomes_collect hc, ?_, fun t' hstep hsame => ?_⟩
  · -- a new heap has nothing to account for
    have hnone : (Heap.make settings registry).accounted = 0 := rfl
    exact hn.trans (haccounted.trans (congrArg (· + n) hnone)).symm
  · exact hsums
  · rintro count a s' (ha | ha)
    · obtain ⟨rs', hruns, hrs'⟩ := Store.reckons_allocate ha
      exact ⟨rs', hruns, hrs'.outcomes⟩
    · obtain ⟨rs', hruns, hrs'⟩ := Store.reckons_allocateLinked ha
      exact ⟨rs', hruns, hrs'.outcomes⟩
  · obtain ⟨rs', n', hrs', -⟩ := hstep.reckons
    have hsums' := hrs'.counters
    rw [hsame, hsums, Counters.foldl_after] at hsums'
    have hlength := congrArg Counters.attempts hsums'
    rw [Counters.attempts_summing, Counters.attempts_summing, List.length_append] at hlength
    have hnone : rs' = [] := List.length_eq_zero_iff.1 (by omega)
    rw [hrs'.outcomes, hnone, List.append_nil]

/-- The settings of a heap without an old generation. -/
def cramped : Settings where
  youngCapacity := 2
  oldCapacity := 0
  oldHighWater := 0
  promotionThreshold := 1

/-- A client whose heap is full, and of whose cells one is rooted. -/
def crowded : Tenant where
  store :=
    { heap :=
        { settings := cramped
          active := #[.blank, .blank]
          roots := { entries := [(⟨0⟩, ⟨.young 0, 0⟩)], next := 1 } } }
  issued := [⟨0, ⟨0⟩⟩]
  allocated := 2

/-- A collection is given up, and one more is run for a cell when the root is gone. -/
theorem cells_reckoned_crowded : ∃ t₀ t, Fresh t₀ ∧ Relation.ReflTransGen (Step {}) t₀ t ∧
    t.allocated = 3 ∧ t.store.heap.occupancy.youngUsed = 1 ∧ t.store.outcomes.length = 2 ∧
      t.store.heap.counters = .summing t.store.outcomes := by
  have h₀ : Fresh { store := { heap := .make cramped 0 } } := ⟨cramped, 0, _, rfl, rfl⟩
  have hrun₀ : Relation.ReflTransGen (Step {}) { store := { heap := .make cramped 0 } }
      { store :=
          { heap := { settings := cramped, active := #[.blank, .blank], roots := .empty 0 } }
        allocated := 2 } :=
    .single (.allocate (show Store.allocate 2 _ = .ok (.ok ⟨.young 0, 0⟩) _ from rfl))
  have hchecks : Action.passes Store.collect (fun _ s => Action.passes (Store.allocate 1)
      (fun a s' => granted 1 a = 1 ∧ s'.heap.occupancy.youngUsed = 1 ∧ s'.outcomes.length = 2)
      (s.mapHeap (·.mapRoots (·.erase ⟨0⟩)))) crowded.store = true := by
    simp only [Store.allocate, Store.makeRoom, Action.get_eq, Action.modify_eq]
    cbv
  obtain ⟨a, s, hc, hchecks⟩ := Action.exists_of_passes hchecks
  obtain ⟨a', s', ha, hchecks⟩ := Action.exists_of_passes hchecks
  obtain ⟨hgranted, hyoung, hlength⟩ := of_decide_eq_true hchecks
  have hrooted := hrun₀.tail (.addRoot (Store.addRoot_of_lt (by decide) ⟨.young 0, 0⟩))
  have hrefused : Step {} crowded { crowded with store := s } := .collect hc
  have herase : Step {} { crowded with store := s } _ :=
    .eraseRoot _ (Set.notMem_empty (⟨0⟩ : RootId))
  have hrun : Relation.ReflTransGen (Step {}) _
      { crowded with store := s', allocated := crowded.allocated + granted 1 a' } :=
    ((hrooted.tail hrefused).tail herase).tail (.allocate ha)
  obtain ⟨-, hcounters, -⟩ := cells_reckoned h₀ hrun
  exact ⟨_, _, h₀, hrun, congrArg (crowded.allocated + ·) hgranted, hyoung, hlength, hcounters⟩

end Tenant

end Tenure
