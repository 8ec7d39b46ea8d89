/-
  Tenure — roots that a refused request leaves behind.

  The sample structure is made of three blocks, with a root after each.  If one of them is refused the
  roots on those before stay registered, and so do their cells.

  * `Tenant.HasNewRoots`: the roots that have been added, and the cells on which they are.
  * `Tenant.Registered`: a client that has got so far; `Registered.block`, `Registered.allocate`,
    `Registered.write`: what comes next.
  * `exists_registered_of_refused`: what is there when a block is refused.
  * `build_leaves_roots`: nothing is left behind exactly if the first block is the one that is refused.
-/
import Tenure.Proofs.KnownCells
import Tenure.Proofs.CellAccount

namespace Tenure

namespace Tenant

/-- The handles of the next roots. -/
def nextIds (t : Tenant) (count : Nat) : List RootId :=
  (List.range count).map fun i => ⟨t.roots.next + i⟩

/-- In `s` there are further roots, each on a cell that is known.  Of the roots before only those are
    missing the owners of which are gone. -/
structure HasNewRoots (t : Tenant) (es : List KnownCell) (s : Store) : Prop where
  registry : s.heap.roots.registry = t.roots.registry
  next : s.heap.roots.next = t.roots.next + es.length
  known : s.heap.HasKnown es
  roots : ∀ i p, (es.map (·.address))[i]? = some p → s.heap.roots.get? ⟨t.roots.next + i⟩ = some p
  sublist : (ids { t with store := s }).Sublist (t.ids ++ t.nextIds es.length)
  dropped : ∀ id ∈ t.ids, id ∉ ids { t with store := s } → Dropped { t with store := s } (t.own id)

variable {t w u : Tenant} {es es' : List KnownCell} {e : KnownCell} {s s' : Store} {gone : List RootLease}
  {f : Address → Address} {count i : Nat} {p : Address} {id : RootId}

theorem HasNewRoots.start (t : Tenant) : t.HasNewRoots [] t.store where
  registry := rfl
  next := rfl
  known := ⟨.nil, nofun⟩
  roots _ _ hp := nomatch hp
  sublist := List.sublist_append_left _ _
  dropped _ hid hout := absurd hid hout

/-- Owners go, and with them their roots. -/
theorem HasNewRoots.loseDropped (h : t.HasNewRoots es s)
    (honly : LosesOnlyDropped { t with store := s } { t with store := s' })
    (hkeepers : ∀ root, keepers { t with store := s' } root ≤ keepers { t with store := s } root)
    (hregistry : s'.heap.roots.registry = s.heap.roots.registry)
    (hnext : s'.heap.roots.next = s.heap.roots.next) (hlength : es'.length = es.length)
    (hknown : s'.heap.HasKnown es')
    (hroots : ∀ i p, (es'.map (·.address))[i]? = some p →
      s'.heap.roots.get? ⟨t.roots.next + i⟩ = some p) : t.HasNewRoots es' s' where
  registry := hregistry.trans h.registry
  next := by rw [hnext, h.next, hlength]
  known := hknown
  roots := hroots
  sublist := by
    rw [hlength]
    exact honly.sublist.trans h.sublist
  dropped id hid hout := by
    have hown : own { t with store := s } id = t.own id := congrArg (RootLease.mk · id) h.registry
    by_cases hmem : id ∈ ids { t with store := s }
    · rw [← hown]
      exact honly.dropped id hmem hout
    · obtain ⟨hleased, hzero⟩ := h.dropped id hid hmem
      have hless := hkeepers (t.own id)
      exact ⟨hleased, by omega⟩

/-- A reference to a value is given up. -/
theorem HasNewRoots.release (h : t.HasNewRoots es s) (v : ValueId) : t.HasNewRoots es (s.release v) := by
  obtain ⟨gone, hgone⟩ := Store.exists_losesOwners_release s v
  have hloses : LosesOwners { t with store := s } gone { t with store := s.release v } :=
    Alike.losesOwners ⟨rfl, rfl, rfl⟩ hgone (Store.givesUp_release s v).leases
  refine h.loseDropped hloses.losesOnlyDropped (fun root => ?_) ?_ ?_ rfl
    (h.known.congr fun _ => ?_) fun i p hp => ?_
  · have := hloses.keepers root
    omega
  · rw [hgone.heap]
    rfl
  · rw [hgone.heap]
    rfl
  · rw [hgone.heap]
    rfl
  · rw [hgone.heap]
    exact h.roots i p hp

/-- A client that has registered these roots.  It may have asked for more blocks. -/
structure Registered (w : Tenant) (es : List KnownCell) (s : Store) :
    Prop extends w.HasNewRoots es s where
  steps : ∃ issued allocated, Relation.ReflTransGen (Step {}) w { w with store := s, issued, allocated }

namespace Registered

theorem start (w : Tenant) : w.Registered [] w.store := ⟨.start w, _, _, .refl⟩

/-- No owner has ever had one of the next roots. -/
theorem next_not_mem (hw : w.Orderly) (i : Nat) : w.own ⟨w.roots.next + i⟩ ∉ w.leased := fun hmem =>
  absurd (hw.serial_lt (hw.leased _ hmem)) (Nat.not_lt.2 (Nat.le_add_right _ _))

/-- The cells on which there are roots are found by a mark phase. -/
theorem finds (h : w.Registered es s) (hw : w.Orderly) (he : e ∈ es) :
    s.heap.purged.Finds s.heap.purged.roots.addresses e.address := by
  obtain ⟨issued, allocated, hsteps⟩ := h.steps
  have hu := orderly_of_steps hsteps hw
  obtain ⟨i, hi⟩ := List.mem_iff_getElem?.1 (List.mem_map_of_mem (f := (·.address)) he)
  have hnew := next_not_mem hw i
  rw [← own_of_steps hsteps] at hnew
  obtain ⟨c, hc, hm, -⟩ := h.known.cell e he
  exact .start (hu.mem_purged (h.roots i _ hi) hnew) hc hm

/-- **A request for a block**, however it ends: the cells with roots may have moved. -/
theorem allocate (h : w.Registered es s) (hw : w.Orderly) {a : Except HeapError Address}
    (ha : s.allocate count = .ok a s') : ∃ f, w.Registered (es.map (KnownCell.moved f)) s' ∧
      ∀ q block, a = .ok q → q.block count = .ok block → ∀ e ∈ es, f e.address ∉ block := by
  obtain ⟨f, hf, hapart⟩ := Store.exists_transports_allocate ha
  obtain ⟨issued, allocated, hsteps⟩ := h.steps
  have hu := orderly_of_steps hsteps hw
  have hlasting : ∀ e ∈ es, e.address ∈ s.lasting s' := fun e he => Or.inr (h.finds hw he)
  have hstep : Step {} { w with store := s, issued, allocated }
      { w with store := s', issued, allocated := allocated + granted count a } := .allocate ha
  have htransports : Transports { roots := Set.univ } { w with store := s, issued, allocated } f
      { w with store := s', issued, allocated } := .of_store hu hf
  have hroots : ∀ i p, ((es.map (KnownCell.moved f)).map (·.address))[i]? = some p →
      s'.heap.roots.get? ⟨w.roots.next + i⟩ = some p := by
    intro i p hp
    rw [List.map_map] at hp
    obtain ⟨e, he, rfl⟩ := Option.map_eq_some_iff.1 (List.getElem?_map .. ▸ hp)
    have hnew := next_not_mem hw i
    rw [← own_of_steps hsteps] at hnew
    refine htransports.roots _ trivial hnew e.address (h.roots i _ ?_)
    rw [List.getElem?_map, he]
    rfl
  have hknown := h.known.transport hf.cells hf.injective hlasting
  refine ⟨f, ⟨?_, issued, _, hsteps.tail hstep⟩, fun q block hq hb e he =>
    hapart q block hq hb _ (hlasting e he) (h.known.cell e he).contains⟩
  obtain ⟨v, hv⟩ := Store.exists_blockAnswer_allocate ha
  have halike : Alike { w with store := s, issued, allocated }
    { w with store := s', issued, allocated } :=
    ⟨rfl, rfl, rfl⟩
  have hlength : (es.map (KnownCell.moved f)).length = es.length := List.length_map _
  rcases halike.same_or_purgesRoots_of_blockAnswer hv with hsame | ⟨g, gone, hpurges⟩
  · have hgone : s'.heap.roots = s.heap.roots.releasing (s.heap.roots.own []) := hsame.roots
    have honly := hsame.losesOnlyDropped
    refine h.toHasNewRoots.loseDropped ⟨honly.sublist, honly.dropped⟩
      (fun root => ?_) ?_ ?_ hlength hknown hroots
    · exact (hsame.keepers root).le
    · rw [hgone]
      rfl
    · rw [hgone]
      rfl
  · have honly := hpurges.losesOnlyDropped hu
    have hpurged : s.heap.purged.roots =
        { s.heap.roots.without s.heap.roots.released with released := [] } := s.heap.roots.purge_eq
    have hgone : s'.heap.roots = _ := hpurges.roots
    refine h.toHasNewRoots.loseDropped ⟨honly.sublist, honly.dropped⟩ (fun root => ?_) hpurges.registry ?_
      hlength hknown hroots
    · exact Nat.le.intro (hpurges.keepers root)
    · rw [hgone]
      show s.heap.purged.roots.next = _
      rw [hpurged]
      rfl

/-- **A root** is registered on a blank cell. -/
theorem root (h : w.Registered es s) (hw : w.Orderly) (hp : s.heap.get? p = some .blank)
    (hapart : ∀ e ∈ es, e.address ≠ p) (hroot : s.addRoot p = .ok id s') :
    id = ⟨w.roots.next + es.length⟩ ∧ w.Registered (es ++ [{ address := p }]) s' := by
  obtain ⟨hlt, rfl, rfl⟩ := Store.addRoot_eq_ok_iff.1 hroot
  obtain ⟨issued, allocated, hsteps⟩ := h.steps
  have hu := orderly_of_steps hsteps hw
  have hid : (⟨s.heap.roots.next⟩ : RootId) = ⟨w.roots.next + es.length⟩ := congrArg _ h.next
  have hfresh : (⟨s.heap.roots.next⟩ : RootId) ∉ s.heap.roots.entries.map (·.1) := fun hmem =>
    hu.next_not_mem (hu.registered _ hmem)
  have hstep := step_rooting (r := {}) (t := { w with store := s, issued, allocated }) hlt p
  have hids : ids { w with store := s.mapHeap (·.mapRoots (·.insert p)) } =
      ids { w with store := s } ++ [⟨w.roots.next + es.length⟩] := by
    rw [← hid]
    exact List.map_append
  refine ⟨hid, ⟨h.registry, ?_, ?_, fun i q hq => ?_, ?_, fun id hmem hout => ?_⟩, _, _,
    hsteps.tail hstep⟩
  · rw [List.length_append, List.length_singleton, ← Nat.add_assoc, ← h.next]
    rfl
  · exact (h.known.append (List.nodup_singleton p) (by simpa using hp) (by simpa using hapart)).congr
      fun _ => rfl
  · rw [List.map_append, List.map_singleton] at hq
    rcases Nat.lt_or_ge i es.length with hi | hi
    · rw [List.getElem?_append_left (by simpa using hi)] at hq
      exact RootRegistry.get?_insert_of_get? (h.roots i q hq)
    · obtain ⟨rfl, rfl⟩ : es.length = i ∧ p = q := by
        rw [List.getElem?_append_right (by simpa using hi), List.getElem?_singleton] at hq
        split at hq
        · rename_i hzero
          rw [List.length_map] at hzero
          exact ⟨by omega, Option.some.inj hq⟩
        · cases hq
      rw [← hid]
      exact get?_add_self p hfresh
  · show (ids { w with store := s.mapHeap (·.mapRoots (·.insert p)) }).Sublist _
    rw [hids, nextIds, List.length_append, List.length_singleton, List.range_succ, List.map_append,
      ← List.append_assoc]
    exact h.sublist.append (.refl _)
  · change id ∉ ids { w with store := s.mapHeap (·.mapRoots (·.insert p)) } at hout
    rw [hids] at hout
    exact h.dropped id hmem fun hin => hout (List.mem_append_left _ hin)

/-- **One block more**, with a root on its first cell. -/
theorem block {s₁ : Store} (h : w.Registered es s) (hw : w.Orderly) (hb : w.Balanced) (hcount : 0 < count)
    (ha : s.allocate count = .ok (.ok p) s₁) (hroot : s₁.addRoot p = .ok id s') :
    id = ⟨w.roots.next + es.length⟩ ∧ ∃ f, w.Registered
      (es.map (KnownCell.moved f) ++ [{ address := p }]) s' := by
  obtain ⟨issued, allocated, hsteps⟩ := h.steps
  obtain ⟨block, hb⟩ := Store.exists_block_of_allocate (balanced_of_steps hsteps hb).wellFormed ha
  obtain ⟨f, h', hapart⟩ := h.allocate hw ha
  have hp : p ∈ block := List.mem_of_mem_head? (Address.head?_block hcount hb)
  obtain ⟨hid, hregistered⟩ := h'.root hw (Store.blank_of_allocate ha hb hp) (fun e he heq => by
    obtain ⟨e₀, he₀, rfl⟩ := List.mem_map.1 he
    have hmoved : f e₀.address = p := heq
    exact hapart p block rfl hb e₀ he₀ (hmoved ▸ hp)) hroot
  rw [List.length_map] at hid
  exact ⟨hid, f, hregistered⟩

/-- **A slot** of one of the cells is written, and no values are involved. -/
theorem write {half : Half} {payload : Slot} (h : w.Registered es s) (hi : es[i]? = some e)
    (hslot : (e.slot half).value? = none) (hpayload : payload.value? = none)
    (hw : s.write e.address half payload = .ok () s') :
    w.Registered (es.set i (e.put half payload)) s' := by
  obtain ⟨c, hc, -, hcar, hcdr⟩ := h.known.cell e (List.mem_of_getElem? hi)
  obtain ⟨issued, allocated, hsteps⟩ := h.steps
  have hslot' : (c.slot half).value? = none := by
    cases half with
    | car => rwa [Cell.slot, hcar]
    | cdr => rwa [Cell.slot, hcdr]
  obtain ⟨rfl, hstep⟩ := Step.write (r := {}) (t := { w with store := s, issued, allocated })
    (Set.notMem_empty _) hc hslot' hpayload hw
  have hroots : (s.heap.put e.address (c.store half payload)).roots = s.heap.roots :=
    Heap.roots_put _ _ _
  have hloses : LosesOwners { w with store := s } []
      { w with store := s.mapHeap (·.put e.address (c.store half payload)) } :=
    Alike.same ⟨rfl, rfl, rfl⟩ hroots (Heap.counters_put _ _ _) (fun _ => rfl) fun _ => id
  refine ⟨h.toHasNewRoots.loseDropped hloses.losesOnlyDropped (fun root => (hloses.keepers root).le)
    (congrArg RootRegistry.registry hroots) (congrArg RootRegistry.next hroots) (List.length_set ..)
    (h.known.put hi hc half payload) fun i p hp => ?_, issued, allocated, hsteps.tail hstep⟩
  rw [KnownCell.map_address_set hi] at hp
  rw [Store.heap_mapHeap, hroots]
  exact h.roots i p hp

end Registered

end Tenant

namespace Sample

open Tenant

variable {hello : SymbolId} {linked orphan : ValueId} {t₀ t w : Tenant} {s s' : Store} {e : RunError}
  {symbols symbols' : SymbolTable}

/-- **What is there when a block is refused**: the blocks before it, each with its root.  Nothing else
    is refused, because roots and links lead to the cells however they have moved. -/
theorem exists_registered_of_refused (hw : w.Orderly) (hb : w.Balanced)
    (h : (assemble hello linked orphan).run w.store = .ok (.error e) s') :
    ∃ es, w.Registered es s' ∧ es.length ≤ 2 ∧ (∃ error, e = .heap error) ∧
      (es = [] ↔ ∃ error s₁, Store.allocate 1 w.store = .ok (.error error) s₁) := by
  unfold assemble at h
  rcases Attempt.ofHeap_bind_eq_ok h with ⟨a, s₁, ha, h⟩ | ⟨error, ha, he⟩
  swap
  · obtain rfl := Except.error.inj he
    obtain ⟨f, hregistered, -⟩ := (Registered.start w).allocate hw ha
    exact ⟨[], hregistered, Nat.zero_le _, ⟨error, rfl⟩, iff_of_true rfl ⟨error, s', ha⟩⟩
  have hgranted : ¬ ∃ error s₁, Store.allocate 1 w.store = .ok (.error error) s₁ := by
    rintro ⟨error, _, hrefused⟩
    rw [ha] at hrefused
    cases hrefused
  obtain ⟨head, s₂, hhead, h⟩ := Attempt.lift_bind_eq_ok h
  obtain ⟨hhead, f, hfirst⟩ := (Registered.start w).block hw hb (by decide) ha hhead
  rcases Attempt.ofHeap_bind_eq_ok h with ⟨b, s₃, hb₀, h⟩ | ⟨error, hb₀, he⟩
  swap
  · obtain rfl := Except.error.inj he
    obtain ⟨g, hregistered, -⟩ := hfirst.allocate hw hb₀
    exact ⟨_, hregistered, by simp, ⟨error, rfl⟩, iff_of_false (by simp) hgranted⟩
  obtain ⟨second, s₄, hsecond, h⟩ := Attempt.lift_bind_eq_ok h
  obtain ⟨hsecond, g, hnext⟩ := hfirst.block hw hb (by decide) hb₀ hsecond
  obtain ⟨b₁, -, h⟩ := Attempt.fits_bind_eq_ok h
  obtain ⟨_, s₅, hlink, h⟩ := Attempt.lift_bind_eq_ok h
  have hlinked := hnext.write (i := 1) rfl rfl rfl hlink
  rcases Attempt.ofHeap_bind_eq_ok h with ⟨c, s₆, hc, h⟩ | ⟨error, hc, he⟩
  swap
  · obtain rfl := Except.error.inj he
    obtain ⟨k, hregistered, -⟩ := hlinked.allocate hw hc
    exact ⟨_, hregistered, by simp, ⟨error, rfl⟩, iff_of_false (by simp) hgranted⟩
  obtain ⟨fourth, s₇, hfourth, h⟩ := Attempt.lift_bind_eq_ok h
  obtain ⟨-, k, hlast⟩ := hlinked.block hw hb (by decide) hc hfourth
  -- with all three blocks there is nothing left that may be refused
  have hx₀ : s₇.heap.roots.get? head = some _ := hhead ▸ hlast.roots 0 _ rfl
  have hy₀ : s₇.heap.roots.get? second = some _ := hsecond ▸ hlast.roots 1 _ rfl
  rcases Attempt.bind_eq_ok_iff.1 h with ⟨x, _, hx, h⟩ | ⟨_, hx, -⟩
  all_goals
    rw [run_rooted hx₀] at hx
    cases hx
  rcases Attempt.bind_eq_ok_iff.1 h with ⟨y, _, hy, h⟩ | ⟨_, hy, -⟩
  all_goals
    rw [run_rooted hy₀] at hy
    cases hy
  obtain ⟨cell, _, hcell, h⟩ := Attempt.lift_bind_eq_ok h
  obtain ⟨cell', hcell', -, -, hcdr⟩ := hlast.known.cell _ (List.mem_of_getElem? (i := 1) rfl)
  rw [Store.fetch, hcell'] at hcell
  cases hcell
  rw [hcdr] at h
  rcases Attempt.bind_eq_ok_iff.1 h with ⟨y₁, _, -, h⟩ | ⟨_, hy₁, -⟩
  swap
  · cases hy₁
  obtain ⟨c₁, -, h⟩ := Attempt.fits_bind_eq_ok h
  obtain ⟨c₂, -, h⟩ := Attempt.fits_bind_eq_ok h
  iterate 11 obtain ⟨_, _, -, h⟩ := Attempt.lift_bind_eq_ok h
  cases h

/-- The first of the three blocks is refused. -/
def RefusesFirst (s : Store) : Prop :=
  ∃ linked s₁ orphan s₂ error s₃, openFile "linked.dat" s = .ok linked s₁ ∧
    openFile "orphan.dat" s₁ = .ok orphan s₂ ∧ Store.allocate 1 s₂ = .ok (.error error) s₃

/-- The files are closed again, and have no part in what is left. -/
theorem exists_registered_of_build (ht : t.Orderly) (hb : t.Balanced)
    (h : build symbols t.store = .ok (symbols', .error e) s') :
    ∃ es, t.Registered es s' ∧ es.length ≤ 2 ∧ (∃ error, e = .heap error) ∧
      (es = [] ↔ RefusesFirst t.store) := by
  unfold build at h
  obtain ⟨linked, s₁, hopen, h⟩ := Action.bind_eq_ok_iff.1 h
  obtain ⟨orphan, s₂, hopen', h⟩ := Action.bind_eq_ok_iff.1 h
  obtain ⟨r, s₃, hassemble, h⟩ := Action.bind_eq_ok_iff.1 h
  cases r with
  | ok d => cases h
  | error e' =>
    obtain ⟨_, _, hclose, h⟩ := Action.bind_eq_ok_iff.1 h
    cases hclose
    cases h
    let u : Tenant := { t with store := s₁, handles := linked :: t.handles }
    let w : Tenant := { u with store := s₂, handles := orphan :: u.handles }
    have hfirst : Tenant.Step {} t u := .openFile hopen
    have hsecond : Tenant.Step {} u w := .openFile hopen'
    obtain ⟨es, hregistered, hlength, herror, hiff⟩ := exists_registered_of_refused (w := w)
      (hsecond.effect.orderly (hfirst.effect.orderly ht))
        (hsecond.balanced (hfirst.balanced hb)) hassemble
    have hadded : t.HasNewRoots es s₃ := by
      obtain ⟨hregistry, hnext, hknown, hroots, hsublist, hdropped⟩ := hregistered.toHasNewRoots
      cases hopen
      cases hopen'
      exact ⟨hregistry, hnext, hknown, hroots, hsublist, hdropped⟩
    obtain ⟨issued, allocated, hsteps⟩ := hregistered.steps
    have hclosed : Tenant.Step {} { w with store := s₃, issued, allocated }
        { u with store := s₃.release orphan, issued, allocated } :=
      .release (Set.notMem_empty orphan) (.refl _)
    have hclosed' : Tenant.Step {} { u with store := s₃.release orphan, issued, allocated }
        { t with store := (s₃.release orphan).release linked, issued, allocated } :=
      .release (Set.notMem_empty linked) (.refl _)
    refine ⟨es, ⟨(hadded.release orphan).release linked, issued, allocated, ?_⟩, hlength, herror,
      hiff.trans ⟨fun ⟨error, s₃, ha⟩ => ?_, ?_⟩⟩
    · have hassembled := ((Relation.ReflTransGen.single hfirst).tail hsecond).trans hsteps
      exact (hassembled.tail hclosed).tail hclosed'
    · exact ⟨linked, s₁, orphan, s₂, error, s₃, hopen, hopen', ha⟩
    · rintro ⟨linked', s₁', orphan', s₂', error, s₃, h₁, h₂, ha⟩
      cases hopen.symm.trans h₁
      cases hopen'.symm.trans h₂
      exact ⟨error, s₃, ha⟩

/-- **What a refused request for the sample structure leaves behind**, whatever a client has done since
    it made its first heap: the roots on the blocks before the one that was refused, and through them
    their cells.  There are none, and the roots are those that were there before, exactly if the first
    block was refused. -/
theorem build_leaves_roots (h₀ : t₀.Fresh) (hrun : History t₀ t)
    (h : build symbols t.store = .ok (symbols', .error e) s') :
    (∃ error, e = .heap error) ∧
      (∃ es, t.Registered es s' ∧ es.length ≤ 2 ∧ ∀ e ∈ es, s'.heap.purged.Rooted e.address) ∧
      (t.LosesOnlyDropped { t with store := s' } ↔ RefusesFirst t.store) := by
  obtain ⟨hb, ht⟩ := hrun.orderly h₀.balanced h₀.orderly
  obtain ⟨es, hregistered, hlength, herror, hiff⟩ := exists_registered_of_build ht hb h
  refine ⟨herror, ⟨es, hregistered, hlength, fun e he => (hregistered.finds ht he).reaches⟩, ?_⟩
  rw [← hiff]
  constructor
  · intro honly
    cases es with
    | nil => rfl
    | cons e rest =>
      -- its root has the next handle, which was not given out before
      have hmem : (⟨t.roots.next⟩ : RootId) ∈ t.ids :=
        honly.sublist.mem (mem_ids (t := { t with store := s' }) (hregistered.roots 0 e.address rfl))
      exact absurd (ht.registered _ hmem) ht.next_not_mem
  · rintro rfl
    exact ⟨by simpa [nextIds] using hregistered.sublist, hregistered.dropped⟩

/-- A client whose heap has room for the first two blocks only. -/
def snug : Tenant where
  store :=
    { heap := .make { youngCapacity := 3, oldCapacity := 8, oldHighWater := 8, promotionThreshold := 2 } 0 }

theorem fresh_snug : snug.Fresh := ⟨snug.store.heap.settings, 0, _, rfl, rfl⟩

/-- The third block is refused, after a collection that finds no garbage. -/
theorem build_refused_snug : ∃ symbols e s', build .empty snug.store = .ok (symbols, .error e) s' ∧
    e = .heap (.youngExhausted 3 0) ∧ s'.heap.roots.next = 2 ∧ s'.heap.roots.entries.length = 2 := by
  obtain ⟨⟨symbols, r⟩, s', hbuild, hcheck⟩ := Action.exists_of_passes
    (show Action.passes (build .empty) (fun r s' => match r.2 with
      | .error e => e = .heap (.youngExhausted 3 0) ∧ s'.heap.roots.next = 2 ∧
          s'.heap.roots.entries.length = 2
      | .ok _ => false) snug.store = true by
        simp only [build, assemble, rooted, Store.allocate, Store.makeRoom, Action.get_eq,
          Action.modify_eq, Attempt.get_eq]
        cbv)
  cases r with
  | error e => exact ⟨symbols, e, s', hbuild, of_decide_eq_true hcheck⟩
  | ok d => cases hcheck

theorem build_leaves_roots_snug : snug.Fresh ∧ History snug snug ∧
    ∃ symbols e s' es, build .empty snug.store = .ok (symbols, .error e) s' ∧
      e = .heap (.youngExhausted 3 0) ∧ snug.Registered es s' ∧ es.length = 2 ∧
      ∀ e ∈ es, s'.heap.purged.Rooted e.address := by
  obtain ⟨symbols, e, s', hbuild, he, hnext, -⟩ := build_refused_snug
  obtain ⟨-, ⟨es, hregistered, -, hrooted⟩, -⟩ := build_leaves_roots fresh_snug .refl hbuild
  have hlength : 2 = 0 + es.length := hnext.symm.trans hregistered.next
  exact ⟨fresh_snug, .refl, symbols, e, s', es, hbuild, he, hregistered, by omega, hrooted⟩

/-- Two roots are left where there were none. -/
theorem not_losesOnlyDropped_snug : snug.Fresh ∧
    ∃ symbols e s', build .empty snug.store = .ok (symbols, .error e) s' ∧
      ¬ snug.LosesOnlyDropped { snug with store := s' } := by
  obtain ⟨symbols, e, s', hbuild, -, -, hlength⟩ := build_refused_snug
  refine ⟨fresh_snug, symbols, e, s', hbuild, fun honly => ?_⟩
  have hshort := honly.sublist.length_le
  rw [ids, List.length_map] at hshort
  have hnone : snug.ids.length = 0 := rfl
  change s'.heap.roots.entries.length ≤ _ at hshort
  omega

end Sample

end Tenure
