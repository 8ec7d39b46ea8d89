/-
  Tenure — clients that own roots.

  A client registers roots, some of them for owners, and may hand an owner to a value.  The owner
  goes when the client drops it, or when the last reference to the value goes, which may be in the
  middle of a collection.

  * `Tenant`: a store, what a client holds outside of its heap, and what is remembered of the past.
  * `Reserve`: cells, roots and values that a client leaves alone.
  * `Tenant.Step`, `Tenant.Renewal`, `Tenant.Flagging`: what a client may do, one operation at a time.
  * `Step.balanced`, `Step.clean`: counts of references remain right, and no marks come about.
  * `Tenant.Dropped`: the owner of a root is gone.
  * `Tenant.Effect`: what an operation may do to the roots and to their owners; `Step.effect`: no
    operation does anything else.
  * `Tenant.collections`, `Tenant.attempts`: the collections so far that succeeded, and all of them.
  * `Step.unmoved`: an operation without a collection that succeeds leaves cells where they are.
-/
import Tenure.Proofs.Unmoved
import Tenure.Proofs.Histories
import Tenure.Workload.Sample

namespace Tenure

/-! ## Clients -/

/-- What a client leaves alone. -/
structure Reserve where
  cells : Set Address := ∅
  roots : Set RootId := ∅
  values : Set ValueId := ∅

/-- A store, what a client holds outside of its heap, and what has been given to it. -/
structure Tenant where
  store : Store
  /-- References to values that are in no cell. -/
  handles : List ValueId := []
  /-- Owned roots that no value owns. -/
  leases : List RootLease := []
  /-- The roots that were registered, the latest first. -/
  issued : List RootLease := []
  /-- Those of them that were registered for an owner. -/
  leased : List RootLease := []
  /-- How many cells were allocated in the heap. -/
  allocated : Nat := 0

namespace Tenant

/-- The roots of the heap. -/
def roots (t : Tenant) : RootRegistry := t.store.heap.roots

/-- The handles of the registered roots, in the order of registration. -/
def ids (t : Tenant) : List RootId := t.roots.entries.map (·.1)

/-- A root of the heap, as its owner knows it. -/
def own (t : Tenant) (id : RootId) : RootLease := ⟨t.roots.registry, id⟩

/-- The client as one that holds references. -/
def holdings (t : Tenant) : Holdings := { store := t.store, handles := t.handles }

/-- The cells that an answer to a request for a block stands for. -/
def granted (count : Nat) : Except HeapError Address → Nat
  | .ok _ => count
  | .error _ => 0

/-- What a client may do that leaves a reserve alone.  What it writes into a cell brings its
    references along, and what was there is among its own then. -/
inductive Step (r : Reserve) : Tenant → Tenant → Prop
  | addRoot {t : Tenant} {p : Address} {id : RootId} {s' : Store} :
    t.store.addRoot p = .ok id s' → Step r t { t with store := s', issued := t.own id :: t.issued }
  | lease {t : Tenant} {p : Address} {root : RootLease} {s' : Store} :
    t.store.leaseRoot p = .ok root s' →
      Step r t
        { t with
          store := s'
          leases := root :: t.leases
          issued := root :: t.issued
          leased := root :: t.leased }
  | setRoot (t : Tenant) {id : RootId} (p : Address) :
    id ∉ r.roots → Step r t { t with store := t.store.mapHeap (·.mapRoots (·.set id p)) }
  | eraseRoot (t : Tenant) {id : RootId} :
    id ∉ r.roots → Step r t { t with store := t.store.mapHeap (·.mapRoots (·.erase id)) }
  | dropLease {t : Tenant} {root : RootLease} {rest : List RootLease} :
    t.leases.Perm (root :: rest) →
      Step r t
        { t with store := t.store.mapHeap (·.mapRoots (·.release root)), leases := rest }
  | newValue (t : Tenant) (name : String) :
    Step r t
      { t with
        store := (t.store.newValue (.plain name)).1
        handles := (t.store.newValue (.plain name)).2 :: t.handles }
  | openFile {t : Tenant} {path : String} {v : ValueId} {s' : Store} :
    Sample.openFile path t.store = .ok v s' →
      Step r t { t with store := s', handles := v :: t.handles }
  /-- A value is made that owns a root. -/
  | entrust {t : Tenant} (name : String) {root : RootLease} {rest : List RootLease} :
    t.leases.Perm (root :: rest) →
      Step r t
        { t with
          store := (t.store.newValue (.owner name root)).1
          handles := (t.store.newValue (.owner name root)).2 :: t.handles
          leases := rest }
  | retain {t : Tenant} {v : ValueId} :
    v ∉ r.values → 0 < t.store.values.count v →
      Step r t { t with store := t.store.retain v, handles := v :: t.handles }
  | release {t : Tenant} {v : ValueId} {rest : List ValueId} :
    v ∉ r.values → t.handles.Perm (v :: rest) →
      Step r t { t with store := t.store.release v, handles := rest }
  | put {t : Tenant} {p : Address} {c d : Cell} {rest : List ValueId} :
    p ∉ r.cells → t.store.heap.get? p = some c → (d.isMarked → c.isMarked) →
      (rest ++ d.values).Perm (t.handles ++ c.values) →
        (∀ v ∈ r.values, rest.count v = t.handles.count v) →
          Step r t { t with store := t.store.mapHeap (·.put p d), handles := rest }
  | allocate {t : Tenant} {count : Nat} {a : Except HeapError Address} {s' : Store} :
    t.store.allocate count = .ok a s' →
      Step r t { t with store := s', allocated := t.allocated + granted count a }
  | allocateLinked {t : Tenant} {count : Nat} {a : Except HeapError Address} {s' : Store} :
    t.store.allocateLinked count = .ok a s' →
      Step r t { t with store := s', allocated := t.allocated + granted count a }
  | collect {t : Tenant} {a : Except HeapError CollectionSummary} {s' : Store} :
    t.store.collect = .ok a s' → Step r t { t with store := s' }
  | clearMarks (t : Tenant) : Step r t { t with store := t.store.clearMarks }

/-- The heap is given up, and another one made. -/
def Renewal (t t' : Tenant) : Prop := t' = { t with store := t.store.renew, allocated := 0 }

/-- What touches the flags of cells only. -/
inductive Flagging : Tenant → Tenant → Prop
  | setFlags {t : Tenant} {p : Address} {c : Cell} (flags : Flags) :
    t.store.heap.get? p = some c →
      Flagging t { t with store := t.store.mapHeap (·.put p { c with flags }) }
  | mark (t : Tenant) : Flagging t { t with store := t.store.mark.1 }

/-- A client that has just made its heap. -/
def Fresh (t : Tenant) : Prop :=
  ∃ settings registry heap, Heap.make? settings registry = .ok heap ∧ t = { store := { heap } }

variable {r r' : Reserve} {t t' : Tenant} {gone : List RootLease} {root : RootLease}

/-- Whoever leaves more alone leaves less alone. -/
theorem Step.mono (h : Step r t t') (hcells : r'.cells ⊆ r.cells) (hroots : r'.roots ⊆ r.roots)
    (hvalues : r'.values ⊆ r.values) : Step r' t t' := by
  cases h with
  | addRoot ha => exact .addRoot ha
  | lease hl => exact .lease hl
  | setRoot p hid => exact .setRoot t p fun h => hid (hroots h)
  | eraseRoot hid => exact .eraseRoot t fun h => hid (hroots h)
  | dropLease hp => exact .dropLease hp
  | newValue name => exact .newValue t name
  | openFile ho => exact .openFile ho
  | entrust name hp => exact .entrust name hp
  | retain hv hlive => exact .retain (fun h => hv (hvalues h)) hlive
  | release hv hp => exact .release (fun h => hv (hvalues h)) hp
  | put hp hc hm hperm hcount =>
    exact .put (fun h => hp (hcells h)) hc hm hperm fun v hv => hcount v (hvalues hv)
  | allocate ha => exact .allocate ha
  | allocateLinked ha => exact .allocateLinked ha
  | collect hc => exact .collect hc
  | clearMarks => exact .clearMarks t

theorem steps_mono (h : Relation.ReflTransGen (Step r) t t') (hcells : r'.cells ⊆ r.cells)
    (hroots : r'.roots ⊆ r.roots) (hvalues : r'.values ⊆ r.values) :
    Relation.ReflTransGen (Step r') t t' :=
  Relation.ReflTransGen.mono (fun _ _ hstep => hstep.mono hcells hroots hvalues) _ _ h

/-! ## References and marks -/

/-- The count of each value is the number of references to it that there are. -/
def Balanced (t : Tenant) : Prop := t.holdings.Balanced

theorem Balanced.wellFormed (ht : t.Balanced) : t.store.heap.WellFormed := Store.Balanced.wellFormed ht

theorem Cell.count_values (c : Cell) (v : ValueId) : c.values.count v = c.uses v := by
  rw [Cell.values, List.count_append]
  rfl

theorem Step.balanced (h : Step r t t') (ht : t.Balanced) : t'.Balanced := by
  have hroots : ∀ f : RootRegistry → RootRegistry,
      Balanced { t with store := t.store.mapHeap (·.mapRoots f) } := fun f =>
    ((Holdings.Step.roots t.holdings f).balanced ht).1
  cases h with
  | addRoot ha =>
    obtain ⟨-, rfl, rfl⟩ := Store.addRoot_eq_ok_iff.1 ha
    exact hroots _
  | lease hl =>
    obtain ⟨-, rfl, rfl⟩ := Store.leaseRoot_eq_ok_iff.1 hl
    exact hroots _
  | setRoot p hid => exact hroots _
  | eraseRoot hid => exact hroots _
  | dropLease hp => exact hroots _
  | newValue name => exact Holdings.Balanced.newValue ht _
  | @openFile path v s' ho =>
    cases ho
    have hlog := Holdings.Balanced.conserve ht (Store.conserves_log t.store
      (show (Event.fileOpened path).isEnding = false from rfl))
    exact hlog.1.newValue _
  | entrust name hp => exact Holdings.Balanced.newValue ht _
  | retain hv hlive => exact Holdings.Balanced.retain ht ((Holdings.Balanced.count ht _) ▸ hlive)
  | release hv hp => exact Holdings.Balanced.release ht hp
  | @put p c d rest hp hc hm hperm hcount =>
    refine Holdings.Balanced.put (x := .heap p) ht hc (Holdings.exists_mapRoots_id _) fun v => ?_
    have hv := hperm.count_eq v
    rw [List.count_append, List.count_append, Cell.count_values, Cell.count_values] at hv
    show t.store.values.count v + c.uses v + t.handles.count v = t.store.values.count v + d.uses v + _
    omega
  | allocate ha => exact (Holdings.Balanced.conserve ht (Store.conserves_allocate ha)).1
  | allocateLinked ha => exact (Holdings.Balanced.conserve ht (Store.conserves_allocateLinked ha)).1
  | collect hc => exact (Holdings.Balanced.conserve ht (Store.conserves_collect hc)).1
  | clearMarks => exact ((Holdings.Step.clearMarks t.holdings).balanced ht).1

/-- **Marks come from clients that touch flags.** -/
theorem Step.clean (h : Step r t t') (ht : t.store.heap.Clean) : t'.store.heap.Clean := by
  cases h with
  | addRoot ha =>
    obtain ⟨-, rfl, rfl⟩ := Store.addRoot_eq_ok_iff.1 ha
    exact ht
  | lease hl =>
    obtain ⟨-, rfl, rfl⟩ := Store.leaseRoot_eq_ok_iff.1 hl
    exact ht
  | setRoot p hid => exact ht
  | eraseRoot hid => exact ht
  | dropLease hp => exact ht
  | newValue name => exact ht
  | openFile ho =>
    cases ho
    exact ht
  | entrust name hp => exact ht
  | retain hv hlive => exact ht
  | release hv hp => exact (Store.givesUp_release _ _).clean ht
  | put hp hc hm hperm hcount =>
    refine ht.put _ (Bool.eq_false_iff.2 fun hd => ?_)
    rw [ht.isMarked hc] at hm
    exact Bool.false_ne_true (hm hd)
  | allocate ha => exact Store.clean_allocate ht ha
  | allocateLinked ha => exact Store.clean_allocateLinked ht ha
  | collect hc =>
    obtain ⟨_, hs⟩ := Store.exists_keepsDangling hc
    exact hs.clean
  | clearMarks => exact Heap.clean_clearMarks _

/-- Over a whole run the counts are right, and no marks come about. -/
theorem balanced_of_steps (h : Relation.ReflTransGen (Step r) t t') (ht : t.Balanced) : t'.Balanced := by
  induction h with
  | refl => exact ht
  | tail _ hstep ih => exact hstep.balanced ih

theorem clean_of_steps (h : Relation.ReflTransGen (Step r) t t') (ht : t.store.heap.Clean) :
    t'.store.heap.Clean := by
  induction h with
  | refl => exact ht
  | tail _ hstep ih => exact hstep.clean ih

theorem Renewal.balanced (h : Renewal t t') (ht : t.Balanced) : t'.Balanced := by
  subst h
  exact ((Holdings.Step.renew t.holdings).balanced ht).1

theorem Flagging.balanced (h : Flagging t t') (ht : t.Balanced) : t'.Balanced := by
  cases h with
  | @setFlags p c flags hc =>
    exact ((Holdings.Flagging.setFlags (o := t.holdings) (x := .heap p) flags hc).balanced ht).1
  | mark => exact ((Holdings.Flagging.mark t.holdings).balanced ht).1

/-! ## Owners -/

/-- How many owners a root has: the client, or living values. -/
def keepers (t : Tenant) (root : RootLease) : Nat :=
  t.leases.count root + t.store.values.owners root

/-- Somebody owned the root at some time. -/
def Owned (t : Tenant) (root : RootLease) : Prop := root ∈ t.leases ∨ t.store.values.Leases root

/-- The root was registered for an owner, who is gone. -/
def Dropped (t : Tenant) (root : RootLease) : Prop := root ∈ t.leased ∧ t.keepers root = 0

theorem owned_of_keepers (h : 0 < t.keepers root) : t.Owned root := by
  rcases Nat.eq_zero_or_pos (t.leases.count root) with hzero | hpos
  · have howners : 0 < t.store.values.owners root := by
      rw [keepers] at h
      omega
    obtain ⟨entry, hmem, howns⟩ := List.countP_pos_iff.1 howners
    obtain ⟨i, hi, hentry⟩ := List.getElem_of_mem hmem
    have hlease : entry.value.lease? = some root := by
      simp only [Counted.owns, Bool.and_eq_true, decide_eq_true_eq] at howns
      exact howns.2
    have hget : t.store.values.entries[i]? = some entry := by
      rw [← Array.getElem?_toList, List.getElem?_eq_getElem hi, hentry]
    cases hvalue : entry.value <;> rw [hvalue] at hlease <;> cases hlease
    exact Or.inr ⟨i, entry, _, hget, hvalue⟩
  · exact Or.inl (List.count_pos_iff.1 hpos)

/-! ## What an operation does to roots and owners -/

/-- Some owners are gone, which is noted. -/
structure LosesOwners (t : Tenant) (gone : List RootLease) (t' : Tenant) : Prop where
  roots : t'.roots = t.roots.releasing (t.roots.own gone)
  counters : t'.store.heap.counters = t.store.heap.counters
  keepers : ∀ root, t'.keepers root + gone.count root = t.keepers root
  owned : ∀ root, t'.Owned root → t.Owned root
  issued : t'.issued = t.issued
  leased : t'.leased = t.leased

/-- A collection was run: the roots whose owners are gone are taken away and, when the cells have
    moved to `f`, those whose owners went with the discarded cells. -/
structure PurgesRoots (t : Tenant) (f : Address → Address) (gone : List RootLease) (t' : Tenant) :
    Prop where
  roots : t'.roots =
    { (t.store.heap.purged.roots.mapAddresses f).without (t.roots.own gone) with released := [] }
  counters : (∃ report, t'.store.heap.counters = t.store.heap.counters.recorded report) ∨
    (t'.store.heap.counters = t.store.heap.counters.abandoned ∧ (∀ p, f p = p) ∧ gone = [])
  keepers : ∀ root, t'.keepers root + gone.count root = t.keepers root
  owned : ∀ root, t'.Owned root → t.Owned root
  issued : t'.issued = t.issued
  leased : t'.leased = t.leased

/-- A root was registered, for an owner if `new` has a lease for it. -/
structure Adds (t : Tenant) (p : Address) (new : List RootLease) (t' : Tenant) : Prop where
  roots : t'.roots = t.roots.insert p
  counters : t'.store.heap.counters = t.store.heap.counters
  values : t'.store.values = t.store.values
  leases : t'.leases = new ++ t.leases
  issued : t'.issued = t.own ⟨t.roots.next⟩ :: t.issued
  leased : t'.leased = new ++ t.leased
  new : new = [] ∨ new = [t.own ⟨t.roots.next⟩]

/-- All that an operation may do to the roots and to their owners. -/
inductive Effect (t t' : Tenant) : Prop
  | loseOwners {gone : List RootLease} : t.LosesOwners gone t' → Effect t t'
  | purgeRoots {f : Address → Address} {gone : List RootLease} : t.PurgesRoots f gone t' → Effect t t'
  | add {p : Address} {new : List RootLease} : t.Adds p new t' → Effect t t'
  | set (id : RootId) (p : Address) :
    t' = { t with store := t.store.mapHeap (·.mapRoots (·.set id p)) } → Effect t t'
  | erase (id : RootId) :
    t' = { t with store := t.store.mapHeap (·.mapRoots (·.erase id)) } → Effect t t'

theorem releasing_nil (roots : RootRegistry) : roots.releasing [] = roots := by
  simp [RootRegistry.releasing]

/-- The same owned roots are in the hands of the client, and the same are remembered. -/
structure Alike (t t' : Tenant) : Prop where
  leases : t'.leases = t.leases
  issued : t'.issued = t.issued
  leased : t'.leased = t.leased

/-- The store gives up references. -/
theorem Alike.losesOwners (h : t.Alike t') (hs : t.store.LosesOwners gone t'.store)
    (hleases : ∀ root, t'.store.values.Leases root → t.store.values.Leases root) :
    t.LosesOwners gone t' where
  roots := congrArg Heap.roots hs.heap
  counters := by rw [hs.heap]; rfl
  keepers root := by
    have := hs.owners root
    simp only [Tenant.keepers, h.leases]
    omega
  owned root := by
    rw [Owned, h.leases]
    exact Or.imp_right (hleases root)
  issued := h.issued
  leased := h.leased

/-- Nothing happens to the roots and to their owners. -/
theorem Alike.same (h : t.Alike t') (hroots : t'.roots = t.roots)
    (hcounters : t'.store.heap.counters = t.store.heap.counters)
    (howners : ∀ root, t'.store.values.owners root = t.store.values.owners root)
    (hleases : ∀ root, t'.store.values.Leases root → t.store.values.Leases root) :
    t.LosesOwners [] t' := by
  refine ⟨hroots.trans (releasing_nil _).symm, hcounters, fun root => ?_, fun root => ?_,
    h.issued, h.leased⟩
  · rw [keepers, h.leases, howners]
    rfl
  · rw [Owned, h.leases]
    exact Or.imp_right (hleases root)

theorem exists_purgesRoots_of_collect {s' : Store} {a : Except HeapError CollectionSummary}
    (hc : t.store.collect = .ok a s') : ∃ f gone, t.PurgesRoots f gone { t with store := s' } := by
  have hcounters := Store.counters_collect hc
  have howned : ∀ root, Owned { t with store := s' } root → t.Owned root := fun root =>
    Or.imp_right (Store.leases_of_collect hc)
  have hkeepers : ∀ {gone : List RootLease},
      (∀ root, s'.values.owners root + gone.count root = t.store.values.owners root) →
        ∀ root, keepers { t with store := s' } root + gone.count root = t.keepers root := by
    intro gone howners root
    have := howners root
    simp only [keepers]
    omega
  cases a with
  | ok report =>
    obtain ⟨f, gone, ⟨hroots, howners⟩, -⟩ := Store.exists_purgesRoots_of_finished hc
    exact ⟨f, gone, hroots, Or.inl ⟨report, hcounters⟩, hkeepers howners, howned, rfl, rfl⟩
  | error error =>
    obtain ⟨⟨hroots, howners⟩, -⟩ := Store.purgesRoots_of_refused hc
    exact ⟨id, [], hroots, Or.inr ⟨hcounters, fun _ => rfl, rfl⟩, hkeepers howners, howned, rfl, rfl⟩

theorem PurgesRoots.congr {f : Address → Address} {u : Tenant} (h : t.PurgesRoots f gone u)
    (hu : u.Alike t')
    (hroots : t'.roots = u.roots) (hcounters : t'.store.heap.counters = u.store.heap.counters)
    (hvalues : t'.store.values = u.store.values) : t.PurgesRoots f gone t' where
  roots := hroots.trans h.roots
  counters := hcounters ▸ h.counters
  keepers root := by
    have hsame : t'.keepers root = u.keepers root := by
      simp only [Tenant.keepers, hvalues, hu.leases]
    rw [hsame]
    exact h.keepers root
  owned root howned := h.owned root (by rwa [Owned, hvalues, hu.leases] at howned)
  issued := hu.issued.trans h.issued
  leased := hu.leased.trans h.leased

/-- Making room runs at most one collection. -/
theorem Alike.same_or_purgesRoots (h : t.Alike t') {s : Store} (hs : t.store.Tidied s)
    (hroots : t'.roots = s.heap.roots) (hcounters : t'.store.heap.counters = s.heap.counters)
    (hvalues : t'.store.values = s.values) : t.LosesOwners [] t' ∨ ∃ f gone, t.PurgesRoots f gone t' := by
  obtain ⟨hheap, hsame⟩ | ⟨event, a, u, hc, hheap, hsame⟩ := hs
  · refine Or.inl (h.same ?_ ?_ (fun root => ?_) fun root => ?_)
    · rw [hroots, hheap]
      rfl
    · rw [hcounters, hheap]
    · rw [hvalues, hsame]
    · rw [hvalues, hsame]
      exact id
  · -- the note of the full buffer touches neither the heap nor the values
    obtain ⟨f, gone, hpurges⟩ := exists_purgesRoots_of_collect
      (t := { t with store := t.store.log event }) hc
    have hpurges' : t.PurgesRoots f gone { t with store := u } :=
      ⟨hpurges.roots, hpurges.counters, hpurges.keepers, hpurges.owned, rfl, rfl⟩
    refine Or.inr ⟨f, gone, hpurges'.congr ⟨h.leases, h.issued, h.leased⟩ ?_ ?_ ?_⟩
    · exact hroots.trans (congrArg Heap.roots hheap)
    · exact hcounters.trans (congrArg Heap.counters hheap)
    · exact hvalues.trans hsame

theorem Alike.same_or_purgesRoots_of_blockAnswer (h : t.Alike t') {u : Store} {count : Nat}
    {a : Except HeapError Address} (hu : t.store.BlockAnswer u count a t'.store) :
    t.LosesOwners [] t' ∨ ∃ f gone, t.PurgesRoots f gone t' :=
  h.same_or_purgesRoots hu.tidied hu.roots hu.counters hu.values

theorem Effect.of_same_or_purgesRoots
    (h : t.LosesOwners [] t' ∨ ∃ f gone, t.PurgesRoots f gone t') : Effect t t' := by
  rcases h with hsame | ⟨f, gone, hpurges⟩
  · exact .loseOwners hsame
  · exact .purgeRoots hpurges

/-- **No operation does anything else** to the roots and to their owners. -/
theorem Step.effect (h : Step r t t') : Effect t t' := by
  cases h with
  | @addRoot p _ _ ha =>
    obtain ⟨-, rfl, rfl⟩ := Store.addRoot_eq_ok_iff.1 ha
    exact .add (show t.Adds p [] _ from ⟨rfl, rfl, rfl, rfl, rfl, rfl, Or.inl rfl⟩)
  | @lease p _ _ hl =>
    obtain ⟨-, rfl, rfl⟩ := Store.leaseRoot_eq_ok_iff.1 hl
    exact .add (show t.Adds p [_] _ from ⟨rfl, rfl, rfl, rfl, rfl, rfl, Or.inr rfl⟩)
  | setRoot p hid => exact .set _ p rfl
  | eraseRoot hid => exact .erase _ rfl
  | @dropLease root rest hp =>
    refine .loseOwners (show t.LosesOwners [root] _ from
      ⟨RootRegistry.release_eq root, rfl, fun root' => ?_, fun root' => ?_, rfl, rfl⟩)
    · have hcount := hp.count_eq root'
      rw [← List.singleton_append, List.count_append] at hcount
      simp only [keepers, hcount]
      show rest.count root' + t.store.values.owners root' + _ = _
      omega
    · exact Or.imp_left fun hroot => hp.mem_iff.2 (List.mem_cons_of_mem _ hroot)
  | newValue name =>
    exact .loseOwners (Alike.same ⟨rfl, rfl, rfl⟩ rfl rfl (fun root => Values.owners_add _)
      fun root => Values.leases_of_add nofun)
  | openFile ho =>
    cases ho
    exact .loseOwners (Alike.same ⟨rfl, rfl, rfl⟩ rfl rfl (fun root => Values.owners_add _)
      fun root => Values.leases_of_add nofun)
  | @entrust name root rest hp =>
    -- the root changes hands
    refine .loseOwners (show t.LosesOwners [] _ from
      ⟨(releasing_nil _).symm, rfl, fun root' => ?_, fun root' => ?_, rfl, rfl⟩)
    · have hcount := hp.count_eq root'
      have howners : (t.store.newValue (.owner name root)).1.values.owners root' =
          t.store.values.owners root' + [root].count root' := Values.owners_add _
      rw [← List.singleton_append, List.count_append] at hcount
      simp only [keepers, List.count_nil, howners, hcount]
      omega
    · rintro (hroot | ⟨i, entry, name', hi, howner⟩)
      · exact Or.inl (hp.mem_iff.2 (List.mem_cons_of_mem _ hroot))
      · have hi' : (t.store.values.entries.push ⟨.owner name root, 1⟩)[i]? = some entry := hi
        rw [Array.getElem?_push] at hi'
        split at hi'
        · cases hi'
          cases howner
          exact Or.inl (hp.mem_iff.2 List.mem_cons_self)
        · exact Or.inr ⟨i, entry, name', hi', howner⟩
  | retain hv hlive =>
    exact .loseOwners (Alike.same ⟨rfl, rfl, rfl⟩ rfl rfl (fun root => Values.owners_retain hlive)
      fun root => Values.leases_of_retain)
  | @release v rest hv hp =>
    obtain ⟨gone, hgone⟩ := Store.exists_losesOwners_release t.store v
    exact .loseOwners (Alike.losesOwners ⟨rfl, rfl, rfl⟩ hgone (Store.givesUp_release t.store v).leases)
  | put hp hc hm hperm hcount =>
    exact .loseOwners (Alike.same ⟨rfl, rfl, rfl⟩ (Heap.roots_put _ _ _) (Heap.counters_put _ _ _)
      (fun _ => rfl) fun _ => id)
  | allocate ha =>
    obtain ⟨u, hu⟩ := Store.exists_blockAnswer_allocate ha
    exact .of_same_or_purgesRoots (Alike.same_or_purgesRoots_of_blockAnswer ⟨rfl, rfl, rfl⟩ hu)
  | allocateLinked ha =>
    obtain ⟨u, hu⟩ := Store.exists_blockAnswer_allocateLinked ha
    exact .of_same_or_purgesRoots (Alike.same_or_purgesRoots_of_blockAnswer ⟨rfl, rfl, rfl⟩ hu)
  | collect hc =>
    obtain ⟨f, gone, h⟩ := exists_purgesRoots_of_collect hc
    exact .purgeRoots h
  | clearMarks => exact .loseOwners (Alike.same ⟨rfl, rfl, rfl⟩ rfl rfl (fun _ => rfl) fun _ => id)

theorem Flagging.effect (h : Flagging t t') : Effect t t' := by
  cases h with
  | setFlags flags hc =>
    exact .loseOwners (Alike.same ⟨rfl, rfl, rfl⟩ (Heap.roots_put _ _ _) (Heap.counters_put _ _ _)
      (fun _ => rfl) fun _ => id)
  | mark =>
    obtain ⟨hheap, hvalues⟩ := Store.logMarking_eq { t.store with heap := t.store.heap.mark.heap }
      t.store.heap.mark.dangling t.store.heap.mark.summary t.store.heap.roots.size
    have hmarked : t.store.mark.1.heap.clearMarks = t.store.heap.clearMarks :=
      (congrArg Heap.clearMarks hheap).trans (Heap.clearMarks_mark _)
    have hroots := congrArg Heap.roots hmarked
    have hcounters := congrArg Heap.counters hmarked
    refine .loseOwners (Alike.same ⟨rfl, rfl, rfl⟩ hroots hcounters (fun root => ?_) fun root => ?_)
    · exact congrArg (Values.owners root) hvalues
    · exact fun hroot => hvalues ▸ hroot

/-! ## Collections -/

/-- The collections so far that succeeded. -/
def collections (t : Tenant) : Nat := t.store.heap.counters.youngCollections

/-- All collections so far. -/
def attempts (t : Tenant) : Nat := t.collections + t.store.heap.counters.failedCollections

/-- The totals grow. -/
theorem Effect.collections_le (h : Effect t t') :
    t.collections ≤ t'.collections ∧ t.attempts ≤ t'.attempts := by
  cases h with
  | loseOwners h => simp [attempts, collections, h.counters]
  | purgeRoots h =>
    rcases h.counters with ⟨report, hc⟩ | ⟨hc, -, -⟩
    · simp [attempts, collections, hc, Counters.recorded]
    · simp [attempts, collections, hc, Counters.abandoned]
  | add h => simp [attempts, collections, h.counters]
  | set id p h =>
    subst h
    exact ⟨Nat.le_refl _, Nat.le_refl _⟩
  | erase id h =>
    subst h
    exact ⟨Nat.le_refl _, Nat.le_refl _⟩

/-- **Cells stay where they are** as long as no collection succeeds. -/
theorem Step.unmoved (h : Step r t t') (hsame : t'.collections = t.collections) :
    t.store.heap.Unmoved r.cells t'.store.heap := by
  have hnone : ∀ {h h' : Heap}, (∀ p, h'.get? p = h.get? p) → h.Unmoved r.cells h' := .of_get?
  cases h with
  | addRoot ha =>
    obtain ⟨-, rfl, rfl⟩ := Store.addRoot_eq_ok_iff.1 ha
    exact hnone fun _ => rfl
  | lease hl =>
    obtain ⟨-, rfl, rfl⟩ := Store.leaseRoot_eq_ok_iff.1 hl
    exact hnone fun _ => rfl
  | setRoot p hid => exact hnone fun _ => rfl
  | eraseRoot hid => exact hnone fun _ => rfl
  | dropLease hp => exact hnone fun _ => rfl
  | newValue name => exact hnone fun _ => rfl
  | openFile ho =>
    cases ho
    exact hnone fun _ => rfl
  | entrust name hp => exact hnone fun _ => rfl
  | retain hv hlive => exact hnone fun _ => rfl
  | release hv hp => exact Store.unmoved_of_givesUp (Store.givesUp_release _ _)
  | put hp hc hm hperm hcount => exact Heap.unmoved_put hp _
  | allocate ha =>
    obtain ⟨u, hu⟩ := Store.exists_blockAnswer_allocate ha
    exact hu.unmoved_of_same hsame _
  | allocateLinked ha =>
    obtain ⟨u, hu⟩ := Store.exists_blockAnswer_allocateLinked ha
    exact hu.unmoved_of_same hsame _
  | collect hc => exact Store.unmoved_collect hc hsame
  | clearMarks => exact .of_unmark fun p => Heap.get?_clearMarks _ p

/-- Over a whole run as well. -/
theorem unmoved_of_steps (h : Relation.ReflTransGen (Step r) t t') : t.collections ≤ t'.collections ∧
    (t'.collections = t.collections → t.store.heap.Unmoved r.cells t'.store.heap) := by
  induction h with
  | refl => exact ⟨Nat.le_refl _, fun _ => .of_get? fun _ => rfl⟩
  | tail _ hstep ih =>
    obtain ⟨hle, hunmoved⟩ := ih
    have hmore := hstep.effect.collections_le.1
    refine ⟨hle.trans hmore, fun hall => ?_⟩
    exact (hunmoved (by omega)).trans (hstep.unmoved (by omega))

end Tenant

end Tenure
