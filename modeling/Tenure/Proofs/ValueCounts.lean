/-
  Tenure — counts of values that a client leaves alone.

  Whatever a client does with other values, the count of one that it neither shares nor gives back can
  only go down, and it goes down when a collection discards a cell that holds a reference to it.

  * `count_le_tidied`, `Step.count_le`, `count_le_of_steps`: the count does not go up.
  * `two_le_count`: a value that the client knows and that is in a cell has two references at least.
  * `count_lt_of_discarded`, `Step.count_lt_of_discarded`: a young cell that cannot be reached takes its
    reference along.
-/
import Tenure.Proofs.RootOwners

namespace Tenure

namespace Heap

variable {h : Heap} {p : Address} {c : Cell} {v : ValueId}

theorem WellFormed.finite_young (hh : h.WellFormed) : {p | ¬ p.isOld ∧ h.contains p}.Finite := by
  have hcapacity : h.settings.youngCapacity < Address.limit := hh.settings.2.1
  have hyoung := hh.young
  have hsize : h.active.toList.length ≤ Address.limit := by
    rw [Array.length_toList]
    omega
  have hfinite : (addressesIn h.side.space (fun _ => true) h.active.toList).Finite :=
    (countP_eq_ncard hsize).1
  refine hfinite.subset fun p hp => ?_
  obtain ⟨c, hc⟩ := contains_iff.1 hp.2
  exact mem_addressesIn_active.2 ⟨hp.1, c, hc, rfl⟩

/-- A lost young cell holds its references. -/
theorem WellFormed.held_pos (hh : h.WellFormed) (hc : h.get? p = some c) (hcar : c.car = .value v)
    (hp : p ∈ h.lostYoung) : 0 < h.held v h.lostYoung := by
  have hfinite : {p | p ∈ h.lostYoung ∧ ∃ c, h.get? p = some c ∧ c.car = .value v}.Finite :=
    hh.finite_young.subset fun q hq => ⟨hq.1.1, hq.1.2.1⟩
  have hpos := (Set.ncard_pos hfinite).2 ⟨p, hp, c, hc, hcar⟩
  exact Nat.add_pos_left hpos _

end Heap

namespace Store

variable {s s' : Store} {v : ValueId} {count : Nat}

theorem count_le_collect {a : Except HeapError CollectionSummary} (hc : s.collect = .ok a s')
    (v : ValueId) : s'.values.count v ≤ s.values.count v := by
  obtain ⟨-, c, -, ⟨_, -, -, -, hvalues⟩ | ⟨_, _, _, _, -, -, -, hcount⟩⟩ := collect_references hc
  · rw [hvalues]
  · rw [hcount]
    omega

theorem count_le_tidied (h : s.Tidied s') (v : ValueId) : s'.values.count v ≤ s.values.count v := by
  obtain ⟨-, hvalues⟩ | ⟨event, a, t, hc, -, hvalues⟩ := h
  · rw [hvalues]
  · rw [hvalues]
    exact count_le_collect hc v

/-- **A young cell that cannot be reached** takes its reference along when it is discarded. -/
theorem count_lt_of_discarded {outside : ValueId → Nat} (hs : s.Balanced outside)
    {report : CollectionSummary} (hc : s.collect = .ok (.ok report) s') {p : Address} {c : Cell}
    (hp : s.heap.get? p = some c) (hcar : c.car = .value v) (hm : c.isMarked = false)
    (hyoung : ¬ p.isOld) (hout : ¬ s.heap.purged.Rooted p) :
    s'.values.count v < s.values.count v := by
  have hlost : p ∈ s.heap.purged.lostYoung := by
    refine ⟨hyoung, Heap.contains_iff.2 ⟨c, hp⟩, ?_⟩
    rintro (⟨d, hd, hmarked⟩ | hfound)
    · obtain rfl : c = d := Option.some.inj (hp.symm.trans hd)
      rw [hm] at hmarked
      cases hmarked
    · exact hout hfound.reaches
  have hpos := (hs.wellFormed.mapRoots (·.purge.1)).held_pos hp hcar hlost
  have hcount := count_collect hs hc v
  change 0 < s.heap.purged.held v s.heap.purged.lostYoung at hpos
  omega

end Store

namespace Values

variable {values : Values} {u v w : ValueId}

theorem ne_of_live (h : 0 < values.count v) :
    v ≠ ⟨values.entries.size⟩ := by
  rintro rfl
  have hfree : values.entries[(⟨values.entries.size⟩ : ValueId).serial]? = none := by simp
  rw [count_of_unknown hfree] at h
  cases h

theorem count_pos_retain (hv : 0 < values.count v) (hw : 0 < values.count w) :
    0 < (values.retain v).count w := by
  rw [count_retain hv]
  exact Nat.add_pos_left hw _

theorem count_retain_retain (hv : 0 < values.count v) (hw : 0 < values.count w) :
    ((values.retain v).retain w).count u = values.count u + [v, w].count u := by
  rw [count_retain (count_pos_retain hv hw), count_retain hv]
  simp only [List.count_cons, List.count_nil, beq_iff_eq, eq_comm (a := u)]
  omega

end Values

namespace Tenant

variable {r : Reserve} {t t' : Tenant} {v : ValueId}

theorem Balanced.count_eq (ht : t.Balanced) (v : ValueId) :
    t.store.values.count v = t.store.heap.uses v + t.handles.count v := by
  have hcount := Holdings.Balanced.count ht v
  simpa [Holdings.total, Holdings.outside, holdings] using hcount

/-- A value that the client knows and that is in a cell has two references at least. -/
theorem Balanced.two_le_count (ht : t.Balanced) (hheld : 0 < t.handles.count v) {p : Address} {c : Cell}
    (hc : t.store.heap.get? p = some c) (hcar : c.car = .value v) : 2 ≤ t.store.values.count v := by
  have hcell : 0 < c.uses v := by simp [Cell.uses, hcar]
  have hheap := Heap.uses_get?_le (v := v) hc
  have hcount := ht.count_eq v
  omega

/-- **The count of a value that a client leaves alone** does not go up. -/
theorem Step.count_le (h : Step r t t') (hv : v ∈ r.values) (hlive : 0 < t.store.values.count v) :
    t'.store.values.count v ≤ t.store.values.count v ∧ t'.handles.count v = t.handles.count v := by
  have hne : ∀ {w : ValueId}, w ∉ r.values → v ≠ w := fun hw heq => hw (heq ▸ hv)
  have hnew : ∀ value : ExternalValue,
      (t.store.newValue value).1.values.count v ≤ t.store.values.count v ∧
        ((t.store.newValue value).2 :: t.handles).count v = t.handles.count v := by
    intro value
    have hfresh : v ≠ (t.store.values.add value).2 := Values.ne_of_live hlive
    constructor
    · have hcount : (t.store.newValue value).1.values.count v = _ :=
        Values.count_add t.store.values value v
      rw [hcount, if_neg hfresh, Nat.add_zero]
    · exact List.count_cons_of_ne fun heq => hfresh heq.symm
  cases h with
  | addRoot ha =>
    obtain ⟨-, rfl, rfl⟩ := Store.addRoot_eq_ok_iff.1 ha
    exact ⟨Nat.le_refl _, rfl⟩
  | lease hl =>
    obtain ⟨-, rfl, rfl⟩ := Store.leaseRoot_eq_ok_iff.1 hl
    exact ⟨Nat.le_refl _, rfl⟩
  | setRoot p hid => exact ⟨Nat.le_refl _, rfl⟩
  | eraseRoot hid => exact ⟨Nat.le_refl _, rfl⟩
  | dropLease hp => exact ⟨Nat.le_refl _, rfl⟩
  | newValue name => exact hnew _
  | openFile ho =>
    cases ho
    exact hnew _
  | entrust name hp => exact hnew _
  | @retain w hw hlive' =>
    constructor
    · have hcount : (t.store.retain w).values.count v = _ := Values.count_retain hlive'
      rw [hcount, if_neg (hne hw), Nat.add_zero]
    · exact List.count_cons_of_ne fun heq => hne hw heq.symm
  | @release w rest hw hp =>
    constructor
    · rw [Store.count_release, if_neg (hne hw), Nat.sub_zero]
    · rw [hp.count_eq]
      exact (List.count_cons_of_ne fun heq => hne hw heq.symm).symm
  | put hp hc hm hperm hcount => exact ⟨Nat.le_refl _, hcount v hv⟩
  | allocate ha =>
    obtain ⟨u, hu⟩ := Store.exists_blockAnswer_allocate ha
    exact ⟨hu.values ▸ Store.count_le_tidied hu.tidied v, rfl⟩
  | allocateLinked ha =>
    obtain ⟨u, hu⟩ := Store.exists_blockAnswer_allocateLinked ha
    exact ⟨hu.values ▸ Store.count_le_tidied hu.tidied v, rfl⟩
  | collect hc => exact ⟨Store.count_le_collect hc v, rfl⟩
  | clearMarks => exact ⟨Nat.le_refl _, rfl⟩

theorem count_le_of_steps (h : Relation.ReflTransGen (Step r) t t') (ht : t.Balanced) (hv : v ∈ r.values)
    (hheld : 0 < t.handles.count v) :
    t'.store.values.count v ≤ t.store.values.count v ∧ t'.handles.count v = t.handles.count v := by
  induction h with
  | refl => exact ⟨Nat.le_refl _, rfl⟩
  | @tail u u' hrun hstep ih =>
    obtain ⟨hle, hsame⟩ := ih
    have hcount := (balanced_of_steps hrun ht).count_eq v
    obtain ⟨hle', hsame'⟩ := hstep.count_le hv (by omega)
    exact ⟨hle'.trans hle, hsame'.trans hsame⟩

/-- **The first collection that succeeds** takes the reference in a young cell that cannot be reached. -/
theorem Step.count_lt_of_discarded (h : Step r t t') (ht : t.Balanced)
    (hmore : t'.collections ≠ t.collections) {p : Address} {c : Cell}
    (hp : t.store.heap.get? p = some c) (hcar : c.car = .value v) (hm : c.isMarked = false)
    (hyoung : ¬ p.isOld) (hout : ¬ t.store.heap.purged.Rooted p) :
    t'.store.values.count v < t.store.values.count v := by
  have hcollect : ∀ {a : Except HeapError CollectionSummary} {s s' : Store}, s.collect = .ok a s' →
      s.heap = t.store.heap → s.values = t.store.values →
        s'.heap.counters.youngCollections ≠ t.collections →
          s'.values.count v < t.store.values.count v := by
    intro a s s' hc hheap hvalues hmore
    have hs : s.Balanced t.holdings.outside := ⟨hheap ▸ ht.wellFormed, fun w => by
      rw [hheap, hvalues]
      exact Store.Balanced.count ht w⟩
    cases a with
    | ok report =>
      rw [← hvalues]
      exact Store.count_lt_of_discarded hs hc (hheap ▸ hp) hcar hm hyoung (hheap ▸ hout)
    | error error =>
      refine absurd ?_ hmore
      rw [Store.counters_collect hc, hheap]
      rfl
  have htidied : ∀ {s : Store}, t.store.Tidied s →
      s.heap.counters.youngCollections ≠ t.collections →
        s.values.count v < t.store.values.count v := by
    rintro s (⟨hheap, -⟩ | ⟨event, a, u, hc, hheap, hvalues⟩) hmore
    · exact absurd (by rw [hheap]; rfl) hmore
    · rw [hvalues]
      exact hcollect hc rfl rfl (hheap ▸ hmore)
  have hsame : t'.store.heap.counters = t.store.heap.counters →
      t'.store.values.count v < t.store.values.count v := fun hcounters =>
    absurd (congrArg Counters.youngCollections hcounters) hmore
  cases h with
  | addRoot ha =>
    obtain ⟨-, rfl, rfl⟩ := Store.addRoot_eq_ok_iff.1 ha
    exact hsame rfl
  | lease hl =>
    obtain ⟨-, rfl, rfl⟩ := Store.leaseRoot_eq_ok_iff.1 hl
    exact hsame rfl
  | setRoot p hid => exact hsame rfl
  | eraseRoot hid => exact hsame rfl
  | dropLease hp => exact hsame rfl
  | newValue name => exact hsame rfl
  | openFile ho =>
    cases ho
    exact hsame rfl
  | entrust name hp => exact hsame rfl
  | retain hw hlive => exact hsame rfl
  | release hw hp =>
    obtain ⟨gone, hgone, -⟩ := (Store.givesUp_release t.store _).heap
    exact hsame (by rw [hgone]; rfl)
  | put hp hc hm hperm hcount => exact hsame (Heap.counters_put _ _ _)
  | allocate ha =>
    obtain ⟨u, hu⟩ := Store.exists_blockAnswer_allocate ha
    rw [show Store.values _ = _ from hu.values]
    exact htidied hu.tidied (hu.counters ▸ hmore)
  | allocateLinked ha =>
    obtain ⟨u, hu⟩ := Store.exists_blockAnswer_allocateLinked ha
    rw [show Store.values _ = _ from hu.values]
    exact htidied hu.tidied (hu.counters ▸ hmore)
  | collect hc => exact hcollect hc rfl rfl hmore
  | clearMarks => exact hsame rfl

end Tenant

end Tenure
