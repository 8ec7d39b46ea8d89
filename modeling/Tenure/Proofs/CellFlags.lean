/-
  Tenure — what operations do to the flags of cells.

  * `Flags.survivor`, `Flags.ofAge`: the flags of a cell that has survived so many collections;
    `onward_ofAge`: what one more makes of them.
  * `Heap.KeepsFlags`, `Heap.Ages`: every cell keeps its flags, or a collection has changed those of all
    that it has carried over; `ages_collect`: a successful collection does this.
  * `Heap.PromotedOld`: the promoted cells are the old ones; `PromotedOld.changesFlags`: no operation
    changes that.
  * `changesFlags_allocate`, `changesFlags_allocateLinked`: what requests for blocks do, which may
    run a collection.
-/
import Tenure.Proofs.BlockRequests

namespace Tenure

/-! ## Flags -/

namespace Flags

/-- The flags of a cell that has survived so many collections and is young. -/
def survivor : Nat → Flags
  | 0 => {}
  | 1 => { survivedOnce := true }
  | _ => { survivedTwice := true }

/-- The flags of a cell that has survived so many collections, if `threshold` of them make it old. -/
def ofAge (threshold k : Nat) : Flags :=
  if threshold ≤ k then { survivor threshold with promoted := true } else survivor k

/-- The flags of a cell after one more collection. -/
def onward (threshold : Nat) (old : Bool) (f : Flags) : Flags :=
  if old then f else if threshold ≤ f.age + 1 then { f.aged with promoted := true } else f.aged

@[simp] theorem promoted_aged (f : Flags) : f.aged.promoted = f.promoted := by
  unfold aged
  split <;> rfl

theorem age_survivor (k : Nat) : (survivor k).age = min k 2 := by
  match k with
  | 0 => rfl
  | 1 => rfl
  | k + 2 => simp [survivor, age]

theorem aged_survivor (k : Nat) : (survivor k).aged = survivor (k + 1) := by
  match k with
  | 0 => rfl
  | 1 => rfl
  | k + 2 => rfl

/-- A cell is due when the next collection is the one that makes it old.  The ladder of ages ends at
    two, which is enough for thresholds up to three. -/
theorem due_ofAge_iff {threshold k : Nat} (hmax : threshold ≤ 3) (hk : k < threshold) :
    threshold ≤ (ofAge threshold k).age + 1 ↔ threshold ≤ k + 1 := by
  rw [ofAge, if_neg (Nat.not_le.2 hk), age_survivor]
  omega

/-- **The ladder**: one more collection takes a cell to its next ofAge. -/
theorem onward_ofAge {threshold k : Nat} (hmax : threshold ≤ 3) :
    (ofAge threshold k).onward threshold (decide (threshold ≤ k)) = ofAge threshold (k + 1) := by
  by_cases hk : threshold ≤ k
  · rw [onward, if_pos (by simpa using hk), ofAge, ofAge, if_pos hk, if_pos (by omega)]
  · have hdue := due_ofAge_iff hmax (Nat.not_le.1 hk)
    rw [onward, if_neg (by simpa using hk)]
    by_cases hlast : threshold ≤ k + 1
    · obtain rfl : threshold = k + 1 := by omega
      rw [if_pos (hdue.2 hlast), ofAge, if_neg hk, aged_survivor, ofAge, if_pos hlast]
    · rw [if_neg fun h => hlast (hdue.1 h), ofAge, if_neg hk, aged_survivor, ofAge, if_neg hlast]

end Flags

/-! ## Flags in a heap -/

namespace Heap

variable {h h' h'' : Heap} {p q : Address} {c d : Cell} {f g : Flags} {count : Nat}

/-- The flags of the cell at an address. -/
def flags? (h : Heap) (p : Address) : Option Flags := (h.get? p).map (·.flags)

theorem flags?_eq_some_iff : h.flags? p = some f ↔ ∃ c, h.get? p = some c ∧ c.flags = f :=
  Option.map_eq_some_iff

theorem flags?_put (hc : h.get? p = some c) (hd : d.flags = c.flags) :
    (h.put p d).flags? = h.flags? := by
  funext q
  by_cases hq : q = p
  · rw [hq, flags?, flags?, get?_put_self hc, hc, Option.map_some, hd, Option.map_some]
  · rw [flags?, flags?, get?_put_of_ne hq]

theorem flags?_link (h : Heap) (block : List Address) : (h.link block).flags? = h.flags? := by
  fun_induction Heap.link h block with
  | case1 h p q rest ih =>
    rw [ih, modify]
    split
    · rename_i c hc
      exact flags?_put hc (Cell.flags_store c _ _)
    · rfl
  | case2 h block => rfl

/-- Every cell of `h` is in `h'` with the flags that it had, and the cells that are new are young and
    without flags. -/
structure KeepsFlags (h h' : Heap) : Prop where
  settings : h'.settings = h.settings
  kept : ∀ p f, h.flags? p = some f → h'.flags? p = some f
  new : ∀ p f, h'.flags? p = some f → h.flags? p = some f ∨ (¬ p.isOld ∧ f = {})

theorem KeepsFlags.of_eq (hsettings : h'.settings = h.settings) (hflags : h'.flags? = h.flags?) :
    h.KeepsFlags h' where
  settings := hsettings
  kept _ _ hp := hflags ▸ hp
  new _ _ hp := Or.inl (hflags ▸ hp)

theorem KeepsFlags.trans (hu : h.KeepsFlags h') (hu' : h'.KeepsFlags h'') : h.KeepsFlags h'' where
  settings := hu'.settings.trans hu.settings
  kept p f hp := hu'.kept p f (hu.kept p f hp)
  new p f hp := (hu'.new p f hp).elim (hu.new p f) Or.inr

theorem keepsFlags_put (hc : h.get? p = some c) (hd : d.flags = c.flags) : h.KeepsFlags (h.put p d) :=
  .of_eq (settings_put h p d) (flags?_put hc hd)

theorem keepsFlags_link (h : Heap) (block : List Address) : h.KeepsFlags (h.link block) :=
  .of_eq (congr_link settings_put h block) (flags?_link h block)

theorem keepsFlags_appended (h : Heap) (count : Nat) : h.KeepsFlags (h.appended count) where
  settings := rfl
  kept p f hp := by
    obtain ⟨c, hc, rfl⟩ := flags?_eq_some_iff.1 hp
    exact flags?_eq_some_iff.2 ⟨c, get?_append hc, rfl⟩
  new p f hp := by
    rw [flags?, get?_appended] at hp
    split at hp
    · rename_i hnew
      exact Or.inr ⟨Address.not_isOld_of_young hnew.1, (Option.some.inj hp).symm⟩
    · exact Or.inl hp

/-- A collection has taken the cells of `h` that the roots reach to `h'`, one collection older, and
    the cells of `h'` are cells of `h` that are one collection older. -/
structure Ages (h h' : Heap) : Prop where
  settings : h'.settings = h.settings
  moved : ∀ p f, h.purged.Rooted p → h.flags? p = some f →
    h'.flags? (h.newAddress p) = some (f.onward h.settings.promotionThreshold p.isOld) ∧
      ((h.newAddress p).isOld ↔ p.isOld ∨ h.settings.promotionThreshold ≤ f.age + 1)
  origin : ∀ q g, h'.flags? q = some g → ∃ p f, h.flags? p = some f ∧
    g = f.onward h.settings.promotionThreshold p.isOld ∧
      (q.isOld ↔ p.isOld ∨ h.settings.promotionThreshold ≤ f.age + 1)

/-- The flags of a cell when it is carried over. -/
theorem flags_carried (hclean : h.Clean) {compacting : Bool}
    (hd : h.prepared.carried compacting p = some d) (hc : h.get? p = some c) :
    d.unmark.flags = c.flags.onward h.settings.promotionThreshold p.isOld := by
  have hcm := hclean.isMarked hc
  have hunmark : ∀ {d₀}, h.prepared.get? p = some d₀ → d₀.unmark = c := by
    intro d₀ hd₀
    obtain ⟨c', hc', hsame⟩ := unmark_prepared hd₀
    cases hc.symm.trans hc'
    rw [← hsame, Cell.unmark_of_not_isMarked hcm]
  by_cases hp : p.isOld
  · have hd₀ : h.prepared.get? p = some d := by
      rw [carried, if_pos hp, carriedOld] at hd
      rw [get?_eq_cellAt _ hp]
      split at hd
      · exact (Option.filter_eq_some_iff.1 hd).1
      · exact hd
    rw [hunmark hd₀, Flags.onward, if_pos hp]
  · rw [carried, if_neg hp, settings_prepared] at hd
    obtain ⟨d₀, hd₀, rfl⟩ := Option.map_eq_some_iff.1 hd
    have hsame := hunmark (Option.filter_eq_some_iff.1 hd₀).1
    have hage : d₀.flags.age = c.flags.age := congrArg (fun c => c.flags.age) hsame
    have hsurvive : d₀.survive.unmark.flags = c.flags.aged := by
      rw [Cell.unmark_of_not_isMarked d₀.isMarked_survive, Cell.survive, hsame]
    rw [Flags.onward, if_neg hp, Cell.evacuated, Cell.isDue, hage]
    by_cases hdue : h.settings.promotionThreshold ≤ c.flags.age + 1
    · rw [if_pos (by simpa using hdue), if_pos hdue, ← hsurvive]
      rfl
    · rw [if_neg (by simpa using hdue), if_neg hdue, hsurvive]

/-- **A successful collection makes cells older.** -/
theorem ages_collect (hh : h.WellFormed) (hclean : h.Clean) {e : Collection} (hc : h.collect = .ok e)
    {report : CollectionSummary} {relocations : Nat} {oldGarbage youngGarbage : Array Cell}
    (ho : e.outcome = .finished report relocations oldGarbage youngGarbage) : h.Ages e.heap := by
  have hmoved := moved_newAddress hc ho
  have key : ∀ p d, h.prepared.carried report.oldCollected p = some d → ∀ c, h.get? p = some c →
      e.heap.flags? (h.newAddress p) =
        some (c.flags.onward h.settings.promotionThreshold p.isOld) ∧
      ((h.newAddress p).isOld ↔ p.isOld ∨ h.settings.promotionThreshold ≤ c.flags.age + 1) := by
    intro p d hd c hc
    obtain ⟨d₀, hd₀⟩ := contains_iff.1 ((contains_prepared h p).trans (contains_iff.2 ⟨c, hc⟩))
    obtain ⟨c', hc', hunmark⟩ := unmark_prepared hd₀
    cases hc.symm.trans hc'
    refine ⟨flags?_eq_some_iff.2 ⟨_, hmoved.cell p d hd, flags_carried hclean hd hc⟩, ?_⟩
    rw [hmoved.isOld p d₀ hd₀ (Option.isSome_of_eq_some hd), settings_prepared, Cell.isDue,
      age_eq_of_unmark hunmark, decide_eq_true_iff]
  refine ⟨settings_collect hh hc, fun p f hp hf => ?_, fun q g hq => ?_⟩
  · obtain ⟨c, hc, rfl⟩ := flags?_eq_some_iff.1 hf
    have hkept : (h.prepared.carried report.oldCollected p).isSome :=
      (carried_prepared_iff h).2 (Clean.keeps (h := h) hclean hp)
    obtain ⟨d, hd⟩ := Option.isSome_iff_exists.1 hkept
    exact key p d hd c hc
  · obtain ⟨c', hc', -⟩ := flags?_eq_some_iff.1 hq
    obtain ⟨p, hp, rfl⟩ := hmoved.bijOn.surjOn (show q ∈ {q | e.heap.contains q} from
      contains_iff.2 ⟨c', hc'⟩)
    obtain ⟨d, hd⟩ := Option.isSome_iff_exists.1 hp
    obtain ⟨d₀, hd₀, -⟩ := slots_carried hd
    obtain ⟨c, hc, -⟩ := unmark_prepared hd₀
    obtain ⟨hflags, hold⟩ := key p d hd c hc
    exact ⟨p, c.flags, flags?_eq_some_iff.2 ⟨c, hc, rfl⟩,
      Option.some.inj (hq.symm.trans hflags), hold⟩

/-- What an operation does to the flags, in which a collection has succeeded or not. -/
def ChangesFlags (h : Heap) (collected : Bool) (h' : Heap) : Prop :=
  if collected then ∃ between, h.Ages between ∧ between.KeepsFlags h' else h.KeepsFlags h'

theorem ChangesFlags.keepsFlags {collected : Bool} (ht : h.ChangesFlags collected h')
    (hu : h'.KeepsFlags h'') : h.ChangesFlags collected h'' := by
  cases collected with
  | false => exact KeepsFlags.trans ht hu
  | true =>
    obtain ⟨between, ha, hu'⟩ := ht
    exact ⟨between, ha, hu'.trans hu⟩

/-- The cells that are promoted are the old ones. -/
def PromotedOld (h : Heap) : Prop := ∀ p f, h.flags? p = some f → (f.promoted = true ↔ p.isOld)

theorem PromotedOld.keepsFlags (hs : h.PromotedOld) (hu : h.KeepsFlags h') : h'.PromotedOld := by
  intro p f hf
  rcases hu.new p f hf with hf | ⟨hyoung, rfl⟩
  · exact hs p f hf
  · exact ⟨nofun, fun hold => absurd hold hyoung⟩

theorem PromotedOld.ages (hs : h.PromotedOld) (ha : h.Ages h') : h'.PromotedOld := by
  intro q g hg
  obtain ⟨p, f, hf, rfl, hq⟩ := ha.origin q g hg
  have hp := hs p f hf
  rw [hq, Flags.onward]
  by_cases hold : p.isOld
  · rw [if_pos hold, hp]
    exact ⟨Or.inl, fun _ => hold⟩
  · rw [if_neg hold]
    by_cases hdue : h.settings.promotionThreshold ≤ f.age + 1
    · rw [if_pos hdue]
      exact ⟨fun _ => Or.inr hdue, fun _ => rfl⟩
    · rw [if_neg hdue, Flags.promoted_aged, hp]
      exact ⟨Or.inl, fun h => h.resolve_right hdue⟩

theorem PromotedOld.changesFlags (hs : h.PromotedOld) {collected : Bool}
    (ht : h.ChangesFlags collected h') : h'.PromotedOld := by
  cases collected with
  | false => exact hs.keepsFlags ht
  | true =>
    obtain ⟨between, ha, hu⟩ := ht
    exact (hs.ages ha).keepsFlags hu

end Heap

/-! ## Operations of a store -/

namespace Store

variable {s s' t : Store} {count : Nat} {p q : Address} {block : List Address}

theorem keepsFlags_of_givesUp (h : s.GivesUp s') : s.heap.KeepsFlags s'.heap := by
  obtain ⟨f, hf⟩ := h.exists_mapRoots
  exact hf ▸ .of_eq rfl rfl

theorem keepsFlags_write {half : Half} {payload : Slot} (hw : s.write p half payload = .ok () s') :
    s.heap.KeepsFlags s'.heap := by
  rcases write_ends (Or.inl hw) with ⟨c, hc, rfl⟩ | rfl
  · have hput := Heap.keepsFlags_put hc (c.flags_store half payload)
    exact hput.trans (keepsFlags_of_givesUp (givesUp_releaseSlot (s.mapHeap (·.put p _)) _))
  · exact keepsFlags_of_givesUp (givesUp_releaseSlot s payload)

theorem keepsFlags_of_refused (hh : s.heap.WellFormed) (hclean : s.heap.Clean) {error : HeapError}
    (hc : s.collect = .ok (.error error) s') : s.heap.KeepsFlags s'.heap := by
  obtain ⟨-, -, -, hheap, -⟩ := of_refused hh hclean hc
  rw [hheap]
  exact .of_eq rfl rfl

theorem ages_of_collect (hh : s.heap.WellFormed) (hclean : s.heap.Clean) {report : CollectionSummary}
    (hc : s.collect = .ok (.ok report) s') : s.heap.Ages s'.heap := by
  obtain ⟨c, _, _, _, _, hheap, ho, -⟩ := exists_finished hc
  obtain ⟨hsettings, hmoved, horigin⟩ := Heap.ages_collect hh hclean hheap ho
  obtain ⟨roots, hs'⟩ := exists_roots_of_collect hheap hc
  -- the roots are no part of what holds of the cells
  rw [hs']
  exact ⟨hsettings, hmoved, horigin⟩

/-- A request for a block that finds no room, and for which a collection succeeds. -/
def CollectsFor (s : Store) (count : Nat) : Prop :=
  0 < count ∧ count ≤ s.heap.settings.youngCapacity ∧ s.heap.room < count ∧
    ∃ report t, s.collect = .ok (.ok report) t

/-- What a request for a block does to the flags. -/
theorem changesFlags_allocate (hh : s.heap.WellFormed) (hclean : s.heap.Clean)
    {r : Except HeapError Address} (ha : s.allocate count = .ok r s') {collected : Bool}
    (hcollected : collected = true ↔ s.CollectsFor count) : s.heap.ChangesFlags collected s'.heap := by
  have hstill : ¬ s.CollectsFor count → s.heap.KeepsFlags s'.heap →
    s.heap.ChangesFlags collected s'.heap :=
    fun hno hu => by rwa [Heap.ChangesFlags, if_neg fun hyes => hno (hcollected.1 hyes)]
  rcases allocate_outcomes hh ha with ⟨hsize, -, rfl⟩ | ⟨-, hroom, _, _, -, rfl, -⟩ |
    ⟨hcount, hfits, hfull, u, hm, ⟨error, hc, -⟩ | ⟨report, t, hc, hends⟩⟩
  · refine hstill (fun hyes => ?_) (.of_eq rfl rfl)
    have := hyes.1
    have := hyes.2.1
    omega
  · exact hstill (fun hyes => absurd hroom (Nat.not_le.2 hyes.2.2.1)) (Heap.keepsFlags_appended _ _)
  · refine hstill (fun ⟨_, _, _, report, t, hc'⟩ => ?_) (hm.heap ▸ keepsFlags_of_refused hh hclean hc)
    cases hc.symm.trans hc'
  · have hyes : s.CollectsFor count := ⟨hcount, hfits, hfull, report, t, hc⟩
    rw [Heap.ChangesFlags, if_pos (hcollected.2 hyes), ← hm.heap]
    refine ⟨t.heap, ages_of_collect hh hclean hc, ?_⟩
    rcases hends with ⟨-, rfl⟩ | ⟨_, _, -, rfl, -⟩
    · exact .of_eq rfl rfl
    · exact Heap.keepsFlags_appended t.heap count

theorem changesFlags_allocateLinked (hh : s.heap.WellFormed) (hclean : s.heap.Clean)
    {r : Except HeapError Address} (ha : s.allocateLinked count = .ok r s') {collected : Bool}
    (hcollected : collected = true ↔ s.CollectsFor count) : s.heap.ChangesFlags collected s'.heap := by
  obtain ⟨r₀, t, ha₀, ⟨_, -, -, rfl⟩ | ⟨_, block, -, -, -, rfl⟩⟩ := allocateLinked_cases ha
  · exact changesFlags_allocate hh hclean ha₀ hcollected
  · exact Heap.ChangesFlags.keepsFlags (changesFlags_allocate hh hclean ha₀ hcollected)
      (Heap.keepsFlags_link t.heap block)

/-- The cells of a new block are young and have no flags. -/
theorem flags?_of_allocate (hh : s.heap.WellFormed) (ha : s.allocate count = .ok (.ok q) s')
    (hb : q.block count = .ok block) (hp : p ∈ block) : s'.heap.flags? p = some {} ∧ ¬ p.isOld := by
  refine ⟨Heap.flags?_eq_some_iff.2 ⟨_, blank_of_allocate ha hb hp, rfl⟩, ?_⟩
  obtain ⟨t, _, -, -, -, -, hspace, -⟩ := readied_of_allocate hh ha
  obtain ⟨k, hk, rfl⟩ := List.getElem_of_mem hp
  obtain ⟨hsame, -⟩ := (Address.getElem?_block hb).2 k _ (List.getElem?_eq_getElem hk)
  exact Address.not_isOld_of_young (hsame.trans hspace)

theorem flags?_of_allocateLinked (hh : s.heap.WellFormed)
    (ha : s.allocateLinked count = .ok (.ok q) s') (hb : q.block count = .ok block) (hp : p ∈ block) :
    s'.heap.flags? p = some {} ∧ ¬ p.isOld := by
  obtain ⟨r₀, t, ha₀, ⟨_, -, hr, -⟩ | ⟨q', block', rfl, hr, -, rfl⟩⟩ := allocateLinked_cases ha
  · cases hr
  cases hr
  obtain ⟨hflags, hyoung⟩ := flags?_of_allocate hh ha₀ hb hp
  exact ⟨(congrFun (Heap.flags?_link t.heap block') p).trans hflags, hyoung⟩

end Store

end Tenure
