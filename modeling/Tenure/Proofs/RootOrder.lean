/-
  Tenure — collections of heaps that differ in their roots only.

  A mark phase goes through the cells in an order that depends on the order of the roots, and an
  address that is registered twice is looked at twice.  Nothing of this is left when it is over:
  the marks and the counts depend only on what the roots reach, and the rest of the collection
  sees the marks and not the roots, which it only readdresses.

  * `Heap.Alike`: two heaps that are the same but for their roots.
  * `Clean.mark_alike`: they are marked alike where their roots reach the same cells.
  * `collect_alike`: and then their collections end the same way and leave heaps that are alike.
  * `collect_by_reach`: the same for stores, with the order of the cells afterwards.
-/
import Tenure.Proofs.SurvivorOrder
import Tenure.Proofs.OwnerCounts
import Tenure.Proofs.MarkCounts

namespace Tenure

theorem ReachedCells.eq_of_counts {s t : ReachedCells} (hyoung : s.young = t.young)
    (hold : s.old = t.old) : s = t := by
  obtain ⟨_, _⟩ := s
  obtain ⟨_, _⟩ := t
  cases hyoung
  cases hold
  rfl

namespace Heap

variable {h h' h'' : Heap} {p : Address} {c : Cell} {i : Nat}

/-- The same heap but for the roots. -/
def Alike (h h' : Heap) : Prop := ∃ roots, h' = { h with roots }

theorem alike_mapRoots (h : Heap) (f : RootRegistry → RootRegistry) : h.Alike (h.mapRoots f) :=
  ⟨_, rfl⟩

theorem Alike.symm (hl : h.Alike h') : h'.Alike h := by
  obtain ⟨roots, rfl⟩ := hl
  exact ⟨h.roots, rfl⟩

theorem Alike.trans (hl : h.Alike h') (hl' : h'.Alike h'') : h.Alike h'' := by
  obtain ⟨roots, rfl⟩ := hl
  obtain ⟨roots', rfl⟩ := hl'
  exact ⟨roots', rfl⟩

theorem Alike.purged (hl : h.Alike h') : h.purged.Alike h'.purged :=
  ((alike_mapRoots h _).symm.trans hl).trans (alike_mapRoots h' _)

/-- What is reached depends on the cells and on which addresses are at the start. -/
theorem Alike.reaches (hl : h.Alike h') {start start' : List Address} (hsub : start ⊆ start')
    (hp : h.Reaches start p) : h'.Reaches start' p := by
  obtain ⟨roots, rfl⟩ := hl
  induction hp with
  | start hs hc => exact .start (hsub hs) hc
  | step _ hr hc ih => exact .step ih hr hc

/-- The same addresses in the roots, in any order and any number of times, reach the same cells. -/
theorem Alike.rooted_iff (hl : h.Alike h')
    (hroots : ∀ p, p ∈ h'.roots.addresses ↔ p ∈ h.roots.addresses) (p : Address) :
    h'.Rooted p ↔ h.Rooted p :=
  ⟨hl.symm.reaches fun q hq => (hroots q).1 hq, hl.reaches fun q hq => (hroots q).2 hq⟩

/-! ## The mark phase -/

/-- Cells behind the last address there is are out of reach. -/
theorem getElem?_put_far (h : Heap) (p : Address) (c : Cell) (hi : Address.limit ≤ i) :
    (h.put p c).active[i]? = h.active[i]? ∧ (h.put p c).old[i]? = h.old[i]? := by
  have hne : p.position ≠ i := Nat.ne_of_lt (p.position_lt.trans_le hi)
  unfold put
  split
  · split
    · exact ⟨Array.getElem?_setIfInBounds_ne hne, rfl⟩
    · exact ⟨rfl, rfl⟩
  · exact ⟨rfl, Array.getElem?_setIfInBounds_ne hne⟩

theorem getElem?_trace_far (queue : List Address) (m : Marking) (hi : Address.limit ≤ i) :
    (trace queue m).heap.active[i]? = m.heap.active[i]? ∧
      (trace queue m).heap.old[i]? = m.heap.old[i]? := by
  fun_induction trace queue m with
  | case1 m => exact ⟨rfl, rfl⟩
  | case2 m p rest hc ih => exact ih
  | case3 m p rest c hc hm ih => exact ih
  | case4 m p rest c hc hm ih =>
    obtain ⟨hactive, hold⟩ := getElem?_put_far m.heap p c.mark hi
    exact ⟨ih.1.trans hactive, ih.2.trans hold⟩

theorem side_mark (h : Heap) : h.mark.heap.side = h.side := by rw [mark_eq]

/-- **Heaps that are alike are marked alike** where their roots reach the same cells. -/
theorem Clean.mark_alike (hclean : h.Clean) (hl : h.Alike h')
    (hsame : ∀ p, h'.Rooted p ↔ h.Rooted p) :
    h.mark.heap.Alike h'.mark.heap ∧ h'.mark.summary = h.mark.summary := by
  obtain ⟨roots, rfl⟩ := hl
  have hclean' : ({ h with roots } : Heap).Clean := hclean
  have hget : ∀ p, ({ h with roots } : Heap).mark.heap.get? p = h.mark.heap.get? p := by
    intro p
    rcases hclean.get?_mark p with ⟨hp, he⟩ | ⟨hp, he⟩
    · rcases hclean'.get?_mark p with ⟨-, he'⟩ | ⟨hp', -⟩
      · exact he'.trans he.symm
      · exact absurd ((hsame p).2 hp) hp'
    · rcases hclean'.get?_mark p with ⟨hp', -⟩ | ⟨-, he'⟩
      · exact absurd ((hsame p).1 hp') hp
      · exact he'.trans he.symm
  have hactive : ({ h with roots } : Heap).mark.heap.active = h.mark.heap.active := by
    refine Array.ext_getElem? fun i => ?_
    by_cases hi : i < Address.limit
    · obtain ⟨p, hp⟩ := Address.exists_make (s := h.side.space) hi
      obtain ⟨hs, rfl⟩ := Address.make_eq_ok_iff.1 hp
      rw [← get?_of_active _ (by rw [side_mark]; exact hs), hget,
        get?_of_active _ (by rw [side_mark]; exact hs)]
    · exact (getElem?_trace_far _ _ (Nat.not_lt.1 hi)).1.trans
        (getElem?_trace_far h.roots.addresses { heap := h } (Nat.not_lt.1 hi)).1.symm
  have hold : ({ h with roots } : Heap).mark.heap.old = h.mark.heap.old := by
    refine Array.ext_getElem? fun i => ?_
    by_cases hi : i < Address.limit
    · obtain ⟨p, hp⟩ := Address.exists_make (s := .old) hi
      obtain ⟨hs, rfl⟩ := Address.make_eq_ok_iff.1 hp
      have hread : ∀ h : Heap, h.old[p.position]? = h.get? p := fun h => by
        rw [get?_eq_cellAt h (Address.isOld_iff.2 hs), Compaction.cellAt,
          if_pos (Address.isOld_iff.2 hs)]
      rw [hread, hread, hget]
    · exact (getElem?_trace_far _ _ (Nat.not_lt.1 hi)).2.trans
        (getElem?_trace_far h.roots.addresses { heap := h } (Nat.not_lt.1 hi)).2.symm
  obtain ⟨hyoung, holder⟩ := hclean.counts_mark
  obtain ⟨hyoung', holder'⟩ := hclean'.counts_mark
  simp only [hsame] at hyoung' holder'
  refine ⟨⟨roots, ?_⟩, ReachedCells.eq_of_counts (hyoung'.trans hyoung.symm) (holder'.trans holder.symm)⟩
  rw [mark_eq, hactive, hold, mark_eq h]

/-! ## The rest of a collection -/

theorem abandon_roots (h : Heap) (roots : RootRegistry) :
    ({ h with roots } : Heap).abandon = h.abandon.map fun heap => { heap with roots } := by
  unfold abandon
  simp only
  split <;> rfl

/-- Moving the cells of a marked heap takes no notice of the roots but for readdressing them. -/
theorem move_roots (h : Heap) (roots : RootRegistry) (plan : CollectionPlan)
    (summary : ReachedCells) :
    ({ h with roots } : Heap).move plan summary =
      (h.move plan summary).map fun r =>
        ({ r.1 with roots := roots.mapAddresses (h.movesOf plan.compacting).resolve }, r.2) := by
  have hcompacted : ({ h with roots } : Heap).compacted plan.compacting =
      h.compacted plan.compacting := rfl
  rw [move_eq, move_eq, hcompacted, movesOf]
  cases h.compacted plan.compacting with
  | error fault => rfl
  | ok r =>
    rw [ok_bind, ok_bind, ok_bind, moveYoung, moveYoung]
    simp only
    cases Evacuation.run h.settings.promotionThreshold h.side h.active.toList 0
        { young := h.idle, old := r.kept, moves := r.moves } with
    | error fault => rfl
    | ok e =>
      rw [ok_bind, ok_bind]
      cases Word.sub h.active.size summary.young with
      | error fault => rfl
      | ok reclaimed =>
        rw [ok_bind, ok_bind]
        simp only
        split <;> rfl

theorem Alike.settings (hl : h.Alike h') : h'.settings = h.settings := by
  obtain ⟨_, rfl⟩ := hl
  rfl

theorem Alike.idle (hl : h.Alike h') : h'.idle = h.idle := by
  obtain ⟨_, rfl⟩ := hl
  rfl

theorem Alike.plan (hl : h.Alike h') : h'.plan = h.plan := by
  obtain ⟨_, rfl⟩ := hl
  rfl

theorem Alike.movesOf (hl : h.Alike h') : h'.movesOf = h.movesOf := by
  obtain ⟨_, rfl⟩ := hl
  rfl

/-- **Collections of heaps that are alike**, and whose roots reach the same cells. -/
theorem collect_alike (hclean : h.Clean) (hl : h.Alike h')
    (hsame : ∀ p, h'.purged.Rooted p ↔ h.purged.Rooted p) :
    h'.newAddress = h.newAddress ∧
      (∀ fault, h.collect = .error fault → h'.collect = .error fault) ∧
      ∀ k, h.collect = .ok k →
        ∃ k', h'.collect = .ok k' ∧ k'.outcome = k.outcome ∧ k.heap.Alike k'.heap := by
  have hpurged : h.purged.Clean := hclean
  obtain ⟨⟨roots, hmarked⟩, hsummary⟩ := hpurged.mark_alike hl.purged hsame
  have hprepared : h'.prepared = { h.prepared with roots } := by
    rw [prepared, hmarked]
    rfl
  have hready : h.prepared.Alike h'.prepared := ⟨roots, hprepared⟩
  have hrefusal : h'.refusal = h.refusal := by rw [refusal, refusal, hready.plan, hl.settings]
  refine ⟨funext fun p => by rw [newAddress, newAddress, hready.movesOf, hready.plan], ?_⟩
  by_cases hidle : h.idle = #[]
  · rw [collect_eq hidle, collect_eq (hl.idle.trans hidle), hready.plan, hl.settings, hsummary,
      hrefusal, hprepared, abandon_roots h.prepared roots, move_roots h.prepared roots]
    split
    · cases h.prepared.abandon with
      | error fault =>
        refine ⟨fun _ he => he, fun k hk => ?_⟩
        cases hk
      | ok heap =>
        refine ⟨fun _ he => ?_, fun k hk => ⟨_, rfl, ?_⟩⟩
        · cases he
        · cases hk
          exact ⟨rfl, roots, rfl⟩
    · cases h.prepared.move h.prepared.plan h.purged.mark.summary with
      | error fault =>
        refine ⟨fun _ he => he, fun k hk => ?_⟩
        cases hk
      | ok r =>
        refine ⟨fun _ he => ?_, fun k hk => ⟨_, rfl, ?_⟩⟩
        · cases he
        · cases hk
          exact ⟨rfl, _, rfl⟩
  · have hbusy : h.idle.isEmpty = false := by simpa using hidle
    rw [collect, collect, hl.idle, hbusy]
    refine ⟨fun _ he => he, fun k hk => ?_⟩
    cases hk

end Heap

/-! ## Collections of stores -/

namespace Store

variable {s s' t : Store} {r : Except HeapError CollectionSummary}

/-- The roots that were there when the collection started and still are hold the addresses that `f`
    gives for what they held.  Those that are not there any more had an owner among the values. -/
def Readdresses (s : Store) (f : Address → Address) (s' : Store) : Prop :=
  ∃ gone, s'.heap.roots = (s.heap.purged.roots.mapAddresses f).without gone ∧
    ∀ id ∈ gone, s.values.Leases ⟨s.heap.roots.registry, id⟩

theorem readdresses_of_finished {report : CollectionSummary} (hc : s.collect = .ok (.ok report) s') :
    s.Readdresses s.heap.newAddress s' := by
  obtain ⟨gone, -, hroots, hgone⟩ := transfers_newAddress hc
  exact ⟨gone, hroots, hgone⟩

theorem readdresses_of_refused {error : HeapError} (hc : s.collect = .ok (.error error) s') :
    s.Readdresses id s' := by
  obtain ⟨⟨hroots, -⟩, -⟩ := purgesRoots_of_refused hc
  refine ⟨[], hroots.trans ?_, fun _ hid => absurd hid List.not_mem_nil⟩
  have hpurged : s.heap.purged.roots =
      { s.heap.roots.without s.heap.roots.released with released := [] } := s.heap.roots.purge_eq
  rw [hpurged]
  rfl

/-- The values that go at the end of a collection may take roots with them. -/
theorem alike_collect {k : Collection} (hk : s.heap.collect = .ok k) (hc : s.collect = .ok r s') :
    k.heap.Alike s'.heap :=
  exists_roots_of_collect hk hc

/-- **Collections of stores whose heaps are alike**, and whose roots reach the same cells. -/
theorem collect_alike (hclean : s.heap.Clean) (hl : s.heap.Alike t.heap)
    (hsame : ∀ p, t.heap.purged.Rooted p ↔ s.heap.purged.Rooted p) :
    (∀ fault s', s.collect = .error fault s' → t.collect = .error fault t) ∧
      ∀ r s', s.collect = .ok r s' → ∃ t', t.collect = .ok r t' ∧ s'.heap.Alike t'.heap := by
  obtain ⟨-, hfault, hends⟩ := Heap.collect_alike hclean hl hsame
  constructor
  · intro fault s' hc
    cases hk : s.heap.collect with
    | error fault' =>
      rw [collect_of_fault hk] at hc
      cases hc
      exact collect_of_fault (hfault _ hk)
    | ok k =>
      obtain ⟨_, _, hok⟩ := collect_of_ok hk
      cases hc.symm.trans hok
  · intro r s' hc
    obtain ⟨k, hk, hcase⟩ := collect_cases hc
    obtain ⟨k', hk', ho', halike⟩ := hends k hk
    obtain ⟨t', ht'⟩ : ∃ t', t.collect = .ok r t' := by
      rcases hcase with ⟨_, ho, rfl, -⟩ | ⟨_, _, _, _, ho, rfl, -⟩
      · obtain ⟨t', ht', -⟩ := collect_of_abandoned hk' (ho'.trans ho)
        exact ⟨t', ht'⟩
      · exact collect_of_finished hk' (ho'.trans ho)
    exact ⟨t', ht', ((alike_collect hk hc).symm.trans halike).trans (alike_collect hk' ht')⟩

/-- **A collection depends only on what the roots reach**, and not on the order in which they are
    registered or on how often.  With the same addresses in their roots two heaps have the same
    cells reached, and then they are collected with the same outcome, to the same buffers, and with
    the same address for every root.  Cells that go the same way stay in their order, and those
    that become old come after the old ones that are kept. -/
theorem collect_by_reach (hclean : s.heap.Clean) :
    (∀ t : Store, s.heap.Alike t.heap →
      (∀ p, p ∈ t.heap.purged.roots.addresses ↔ p ∈ s.heap.purged.roots.addresses) →
        ∀ p, t.heap.purged.Rooted p ↔ s.heap.purged.Rooted p) ∧
      (∀ t : Store, s.heap.Alike t.heap →
        (∀ p, t.heap.purged.Rooted p ↔ s.heap.purged.Rooted p) →
          (∀ fault, (∃ s', s.collect = .error fault s') ↔ ∃ t', t.collect = .error fault t') ∧
            ∀ r s', s.collect = .ok r s' → ∃ t', t.collect = .ok r t' ∧ s'.heap.Alike t'.heap ∧
              ∃ f, s.Readdresses f s' ∧ t.Readdresses f t') ∧
      ∀ report s', s.collect = .ok (.ok report) s' →
        s.heap.purged.Transfers report.oldCollected s.heap.newAddress s'.heap ∧
          s.Readdresses s.heap.newAddress s' ∧
          s.heap.purged.InOrder report.oldCollected s.heap.newAddress := by
  refine ⟨fun t hl => hl.purged.rooted_iff, fun t hl hsame => ?_, fun report s' hc => ?_⟩
  · have hclean' : t.heap.Clean := by
      obtain ⟨roots, hroots⟩ := hl
      rw [hroots]
      exact hclean
    obtain ⟨hfault, hends⟩ := collect_alike hclean hl hsame
    obtain ⟨hfault', -⟩ := collect_alike hclean' hl.symm fun p => (hsame p).symm
    refine ⟨fun fault => ⟨fun ⟨s', hc⟩ => ⟨t, hfault fault s' hc⟩,
      fun ⟨t', hc⟩ => ⟨s, hfault' fault t' hc⟩⟩, fun r s' hc => ?_⟩
    obtain ⟨t', hc', halike⟩ := hends r s' hc
    refine ⟨t', hc', halike, ?_⟩
    cases r with
    | error error => exact ⟨id, readdresses_of_refused hc, readdresses_of_refused hc'⟩
    | ok report =>
      have hnewAddress := (Heap.collect_alike hclean hl hsame).1
      exact ⟨s.heap.newAddress, readdresses_of_finished hc, hnewAddress ▸ readdresses_of_finished hc'⟩
  · obtain ⟨-, htransfers, -⟩ := transfers_newAddress hc
    obtain ⟨k, _, _, _, _, hk, ho, -⟩ := exists_finished hc
    exact ⟨htransfers, readdresses_of_finished hc, Heap.inOrder_newAddress hclean hk ho⟩

/-- The same heap with the same addresses in its roots, in another order and each once.  A root whose
    owner is gone leads to a cell that no other root reaches. -/
def rewarren : Store where
  heap :=
    { warren.heap with
      roots :=
        { entries := [(⟨4⟩, ⟨.old, 2⟩), (⟨6⟩, ⟨.young 1, 3⟩), (⟨7⟩, ⟨.young 1, 2⟩), (⟨8⟩, ⟨.young 0, 0⟩),
            (⟨9⟩, ⟨.young 1, 0⟩)]
          next := 10
          released := [⟨7⟩] } }

theorem collect_by_reach_warren : warren.heap.Clean ∧ warren.heap.Alike rewarren.heap ∧
    (∀ p, rewarren.heap.purged.Rooted p ↔ warren.heap.purged.Rooted p) ∧
      ∃ report s' t', warren.collect = .ok (.ok report) s' ∧ rewarren.collect = .ok (.ok report) t' ∧
        report.promoted = 1 ∧ report.survivors = 2 ∧ s'.heap.Alike t'.heap ∧
          warren.heap.purged.InOrder report.oldCollected warren.heap.newAddress := by
  have hclean : warren.heap.Clean := by constructor <;> decide
  have halike : warren.heap.Alike rewarren.heap := ⟨_, rfl⟩
  obtain ⟨hreach, hsame, hmoves⟩ := collect_by_reach hclean
  have hrooted := hreach rewarren halike fun p =>
    ⟨fun hp => (by decide : ∀ p ∈ rewarren.heap.purged.roots.addresses,
        p ∈ warren.heap.purged.roots.addresses) p hp,
      fun hp => (by decide : ∀ p ∈ warren.heap.purged.roots.addresses,
        p ∈ rewarren.heap.purged.roots.addresses) p hp⟩
  obtain ⟨report, s', hc, hcheck⟩ := exists_collect warren
    (fun report _ => report.promoted = 1 ∧ report.survivors = 2) (by cbv)
  obtain ⟨hpromoted, hsurvivors⟩ := of_decide_eq_true hcheck
  obtain ⟨t', hc', hleft, -⟩ := (hsame rewarren halike hrooted).2 _ _ hc
  exact ⟨hclean, halike, hrooted, report, s', t', hc, hc', hpromoted, hsurvivors, hleft,
    (hmoves report s' hc).2.2⟩

end Store

end Tenure
