/-
  Tenure — making the sample structure.

  The cells and the roots are followed through the three allocations, any of which may move those made
  before, and then through the writes.

  * `Tenant.Stage`: what has been made so far; `Stage.allocate`, `Stage.root`, `Stage.link`: what comes
    next.
  * `exists_stage`, `writesOnlyKnown_of_stage`: the three allocations, and the writes to the six cells.
  * `not_rooted_of_writesOnlyKnown`: nothing leads to the last cell.
  * `exists_assembled`, `exists_built`: the whole structure, and the two files in it.
-/
import Tenure.Proofs.ValueCounts
import Tenure.Proofs.KnownCells

namespace Tenure

/-! ## New cells -/

/-- New cells are young. -/
theorem Store.not_isOld_of_allocate {s s' : Store} {count : Nat} {p q : Address} {block : List Address}
    (ha : s.allocate count = .ok (.ok p) s') (hb : p.block count = .ok block) (hq : q ∈ block) :
    ¬ q.isOld := by
  obtain ⟨t, -, ⟨_, he, -⟩ | ⟨heap, p', hp, -, -, hg, -⟩⟩ := allocate_cases ha
  · cases he
  · cases hp
    obtain ⟨first, hfirst, hg⟩ := bind_eq_ok_iff.1 hg
    cases hg
    obtain ⟨hspace, -⟩ := Address.make_eq_ok_iff.1 hfirst
    obtain ⟨k, hk, rfl⟩ := List.getElem_of_mem hq
    obtain ⟨hsame, -⟩ := (Address.getElem?_block hb).2 k _ (List.getElem?_eq_getElem hk)
    exact Address.not_isOld_of_young (hsame.trans hspace)

namespace Tenant

/-- The client after it has made some cells, and roots on some of them, the latest first. -/
def making (w : Tenant) (s : Store) (es : List KnownCell) (rs : List (RootId × Address)) : Tenant :=
  { w with
    store := s
    issued := rs.map (w.own ·.1) ++ w.issued
    allocated := w.allocated + es.length }

/-- A client has made some cells, which are known, and roots.  It has left the values alone. -/
structure Stage (w : Tenant) (s : Store) (es : List KnownCell) (rs : List (RootId × Address)) : Prop where
  steps : Relation.ReflTransGen (Step { values := Set.univ }) w (w.making s es rs)
  balanced : (w.making s es rs).Balanced
  orderly : (w.making s es rs).Orderly
  rootedClean : s.heap.purged.RootedClean
  known : s.heap.HasKnown es
  roots : ∀ e ∈ rs, s.heap.roots.get? e.1 = some e.2 ∧ w.own e.1 ∉ w.leased

namespace Stage

variable {w : Tenant} {s s' : Store} {es es' : List KnownCell} {rs rs' : List (RootId × Address)}
  {count i j : Nat} {p q : Address}

theorem start (hb : w.Balanced) (hw : w.Orderly) (hn : w.store.heap.purged.RootedClean) :
    w.Stage w.store [] [] :=
  ⟨.refl, hb, hw, hn, ⟨.nil, nofun⟩, nofun⟩

/-- One operation more. -/
theorem step (h : w.Stage s es rs)
    (hstep : Step { values := Set.univ } (w.making s es rs) (w.making s' es' rs'))
    (hrootedClean : s'.heap.purged.RootedClean) (hknown : s'.heap.HasKnown es')
    (hroots : ∀ e ∈ rs', s'.heap.roots.get? e.1 = some e.2 ∧ w.own e.1 ∉ w.leased) :
    w.Stage s' es' rs' :=
  ⟨h.steps.tail hstep, hstep.balanced h.balanced, hstep.effect.orderly h.orderly, hrootedClean,
    hknown, hroots⟩

theorem own (h : w.Stage s es rs) (id : RootId) : (w.making s es rs).own id = w.own id :=
  own_of_steps h.steps id

/-- The cell on which there is a root is reached. -/
theorem rooted (h : w.Stage s es rs) {e : RootId × Address} (he : e ∈ rs) :
    s.heap.purged.Rooted e.2 := by
  obtain ⟨hget, hout⟩ := h.roots e he
  rw [← h.own] at hout
  exact h.rootedClean.noDangling.rooted_root (h.orderly.mem_purged hget hout)

/-- **Further cells** are blank, and nothing leads to them.  The others are known where they have
    moved. -/
theorem allocate (h : w.Stage s es rs) (hreached : ∀ e ∈ es, s.heap.purged.Rooted e.address)
    (ha : s.allocate count = .ok (.ok p) s') :
    ∃ f block, p.block count = .ok block ∧
      w.Stage s' (es.map (KnownCell.moved f) ++ block.map fun q => { address := q })
        (rs.map fun e => (e.1, f e.2)) ∧
      ∀ q ∈ block, ¬ s'.heap.purged.Rooted q ∧ ¬ q.isOld := by
  obtain ⟨block, hb⟩ := Store.exists_block_of_allocate h.balanced.wellFormed ha
  obtain ⟨f, hf, hapart⟩ := Store.exists_transports_allocate ha
  obtain ⟨hrootedClean, hback⟩ := hf.rootedClean h.rootedClean
  have hlasting : ∀ q, s.heap.purged.Rooted q → q ∈ s.lasting s' := fun q hq =>
    Or.inr (h.rootedClean.finds hq)
  have hstep : Step { values := Set.univ } (w.making s es rs)
      (w.making s' (es.map (KnownCell.moved f) ++ block.map fun q => { address := q })
        (rs.map fun e => (e.1, f e.2))) := by
    have hafter := Step.allocate (r := { values := Set.univ }) (t := w.making s es rs) ha
    simpa [making, granted, (Address.getElem?_block hb).1, Function.comp_def, Nat.add_assoc] using hafter
  refine ⟨f, block, hb, h.step hstep hrootedClean ?_ fun e' he' => ?_, fun q hq =>
    ⟨fun hrooted => ?_, ?_⟩⟩
  · have hmoved := h.known.transport hf.cells hf.injective fun e he => hlasting _ (hreached e he)
    refine hmoved.append (Address.nodup_block hb) (fun q => Store.blank_of_allocate ha hb)
      fun e' he' => ?_
    obtain ⟨e, he, rfl⟩ := List.mem_map.1 he'
    exact hapart p block rfl hb e.address (hlasting _ (hreached e he)) (h.known.cell e he).contains
  · obtain ⟨e, he, rfl⟩ := List.mem_map.1 he'
    obtain ⟨hget, hout⟩ := h.roots e he
    have htransports : (w.making s es rs).Transports { roots := Set.univ } f
        { w.making s es rs with store := s' } := .of_store h.orderly hf
    exact ⟨htransports.roots e.1 trivial (by rwa [h.own]) e.2 hget, hout⟩
  · obtain ⟨q', hq', rfl⟩ := hback q hrooted
    obtain ⟨c, hc, -⟩ := h.rootedClean.cell hq'
    exact hapart p block rfl hb q' (hlasting q' hq') (Heap.contains_iff.2 ⟨c, hc⟩) hq
  · exact Store.not_isOld_of_allocate ha hb hq

/-- **A root on a blank cell.** -/
theorem root (h : w.Stage s es rs) (hi : es[i]? = some ⟨p, .empty, .empty⟩) {id : RootId}
    (hroot : s.addRoot p = .ok id s') :
    w.Stage s' es ((id, p) :: rs) ∧
      s'.heap.purged.roots.addresses = s.heap.purged.roots.addresses ++ [p] := by
  obtain ⟨hlt, rfl, rfl⟩ := Store.addRoot_eq_ok_iff.1 hroot
  have hnext : w.own ⟨s.heap.roots.next⟩ ∉ (w.making s es rs).issued :=
    h.own _ ▸ h.orderly.next_not_mem
  have hleased : w.own ⟨s.heap.roots.next⟩ ∉ w.leased := fun hmem => hnext (h.orderly.leased _ hmem)
  have hreleased : (⟨s.heap.roots.next⟩ : RootId) ∉ s.heap.roots.released := fun hmem =>
    hleased (h.own _ ▸ (h.orderly.released _ hmem).1)
  have hids : (⟨s.heap.roots.next⟩ : RootId) ∉ s.heap.roots.entries.map (·.1) := fun hmem =>
    hnext (h.own _ ▸ h.orderly.registered _ hmem)
  have haddresses : ((w.making s es rs).rooting p).store.heap.purged.roots.addresses =
      s.heap.purged.roots.addresses ++ [p] :=
    addresses_rooting (t := w.making s es rs) hreleased p
  have hknown : ((w.making s es rs).rooting p).store.heap.HasKnown es := h.known.congr fun _ => rfl
  have hrootedClean : ((w.making s es rs).rooting p).store.heap.purged.RootedClean := by
    refine (hknown.purged.rootedClean (W := {q | s.heap.purged.Rooted q ∨ q = p}) h.rootedClean
      (fun q hq => ?_) (fun _ => Or.inl) fun q hq => ?_).1
    · rw [haddresses] at hq
      exact (List.mem_append.1 hq).imp h.rootedClean.noDangling.rooted_root List.mem_singleton.1
    · refine hq.imp (fun hq => ⟨hq, rfl⟩) fun hq => ?_
      exact ⟨_, List.mem_of_getElem? hi, hq.symm, fun _ => nofun⟩
  have hstep : Step { values := Set.univ } (w.making s es rs)
      (w.making ((w.making s es rs).rooting p).store es ((⟨s.heap.roots.next⟩, p) :: rs)) := by
    have hadd : Step { values := Set.univ } (w.making s es rs) ((w.making s es rs).rooting p) :=
      step_rooting (t := w.making s es rs) hlt p
    rw [rooting, h.own] at hadd
    exact hadd
  refine ⟨h.step hstep hrootedClean hknown fun e he => ?_, haddresses⟩
  rcases List.mem_cons.1 he with rfl | he
  · exact ⟨get?_add_self p hids, hleased⟩
  · obtain ⟨hget, hout⟩ := h.roots e he
    exact ⟨RootRegistry.get?_insert_of_get? hget, hout⟩

/-- **A blank cell is linked to another.** -/
theorem link (h : w.Stage s es rs) (hi : es[i]? = some ⟨p, .empty, .empty⟩)
    (hj : es[j]? = some ⟨q, .empty, .empty⟩) (hw : s.write p .cdr (.ref q) = .ok () s') :
    w.Stage s' (es.set i ⟨p, .empty, .ref q⟩) rs := by
  obtain ⟨c, hc, hm, hcar, hcdr⟩ := h.known.cell _ (List.mem_of_getElem? hi)
  have hslot : (c.slot .cdr).value? = none := congrArg Slot.value? hcdr
  obtain ⟨rfl, hstep⟩ := Step.write (r := { values := Set.univ }) (t := w.making s es rs)
    (Set.notMem_empty _) hc hslot rfl hw
  have hroots := Heap.roots_put s.heap p (c.store .cdr (.ref q))
  have hknown := h.known.put hi hc .cdr (.ref q)
  have hset : ∀ {e : KnownCell}, e ∈ es → e.address ≠ p → e ∈ es.set i ⟨p, .empty, .ref q⟩ := by
    intro e he hne
    obtain ⟨k, hk⟩ := List.mem_iff_getElem?.1 he
    have hki : i ≠ k := by
      rintro rfl
      exact hne (congrArg KnownCell.address (Option.some.inj (hk.symm.trans hi)))
    exact List.mem_of_getElem? ((List.getElem?_set_ne hki).trans hk)
  have hrootedClean : (s.heap.put p (c.store .cdr (.ref q))).purged.RootedClean := by
    refine (hknown.purged.rootedClean (W := {x | s.heap.purged.Rooted x ∨ x = q}) h.rootedClean
      (fun x hx => ?_) (fun _ => Or.inl) fun x hx => ?_).1
    · rw [show (s.heap.put p (c.store .cdr (.ref q))).purged.roots = s.heap.purged.roots from
        congrArg (·.purge.1) hroots] at hx
      exact Or.inl (h.rootedClean.noDangling.rooted_root hx)
    · by_cases hxp : x = p
      · exact Or.inr ⟨_, List.mem_set (List.getElem?_eq_some_iff.1 hi).1 _, hxp.symm,
          fun r hr => Or.inr (List.mem_singleton.1 hr)⟩
      · refine hx.imp (fun hx => ⟨hx, Heap.get?_put_of_ne hxp _⟩) fun hx => ?_
        exact ⟨_, hset (List.mem_of_getElem? hj) (hx ▸ hxp), hx.symm, fun _ => nofun⟩
  have hsame : w.making (s.mapHeap (·.put p (c.store .cdr (.ref q)))) es rs =
      w.making (s.mapHeap (·.put p (c.store .cdr (.ref q)))) (es.set i ⟨p, .empty, .ref q⟩) rs := by
    rw [making, making, List.length_set]
  refine h.step (hsame ▸ hstep) hrootedClean hknown fun e he => ?_
  obtain ⟨hget, hout⟩ := h.roots e he
  exact ⟨(congrArg (·.get? e.1) hroots).trans hget, hout⟩

end Stage

/-- The client when it has made the sample structure. -/
def assembled (w : Tenant) (d : Sample) (s' : Store) : Tenant :=
  { w with
    store := s'
    issued := w.own d.fourth :: w.own d.second :: w.own d.head :: w.issued
    allocated := w.allocated + 6 }

end Tenant

namespace Sample

open Tenant

/-- What the cells of the structure hold when it has just been made. -/
def known (d : Sample) (a b b₁ c c₁ c₂ : Address) : List KnownCell :=
  [⟨a, .symbol d.hello, .ref b⟩, ⟨b, .int 1, .ref b₁⟩, ⟨b₁, .value d.linked, .ref c⟩,
    ⟨c, .double threePointTwo, .ref c₁⟩, ⟨c₁, .string "world", .empty⟩, ⟨c₂, .value d.orphan, .empty⟩]

/-- What they hold before they are written to, but for the link that keeps the third. -/
def unwritten (a b b₁ c c₁ c₂ : Address) : List KnownCell :=
  [⟨a, .empty, .empty⟩, ⟨b, .empty, .ref b₁⟩, ⟨b₁, .empty, .empty⟩, ⟨c, .empty, .empty⟩,
    ⟨c₁, .empty, .empty⟩, ⟨c₂, .empty, .empty⟩]

variable {hello : SymbolId} {linked orphan : ValueId} {w : Tenant} {s s' : Store} {d : Sample}
  {a b b₁ c c₁ c₂ : Address} {head second fourth : RootId}

/-- **The three allocations**, with a root after each, and the link that keeps the third cell. -/
theorem exists_stage {s₁ s₂ s₃ s₄ s₅ s₆ : Store} (hbalanced : w.Balanced) (hw : w.Orderly)
    (hn : w.store.heap.purged.RootedClean) (ha : Store.allocate 1 w.store = .ok (.ok a) s₁)
    (hhead : s₁.addRoot a = .ok head s₂) (hb : Store.allocate 2 s₂ = .ok (.ok b) s₃)
    (hsecond : s₃.addRoot b = .ok second s₄) (hb₁ : b.offset 1 = .ok b₁)
    (hlink : Store.write b .cdr (.ref b₁) s₄ = .ok () s₅)
    (hc : Store.allocate 3 s₅ = .ok (.ok c) s₆) (hc₁ : c.offset 1 = .ok c₁) (hc₂ : c.offset 2 = .ok c₂) :
    ∃ x y y₁, w.Stage s₆ (unwritten x y y₁ c c₁ c₂) [(second, y), (head, x)] ∧
      ¬ s₆.heap.purged.Rooted c₂ ∧ ¬ c₂.isOld := by
  obtain ⟨f, block, hblock, hmade, -⟩ := (Stage.start hbalanced hw hn).allocate nofun ha
  obtain rfl := Address.block_one hblock
  obtain ⟨hmade, -⟩ := hmade.root (i := 0) rfl hhead
  obtain ⟨g, block, hblock, hmade, -⟩ := hmade.allocate
    (List.forall_mem_singleton.2 (hmade.rooted List.mem_cons_self)) hb
  obtain rfl := Address.block_two hblock hb₁
  obtain ⟨hmade, -⟩ := hmade.root (i := 1) rfl hsecond
  have hlinked : w.Stage s₅ [⟨g a, .empty, .empty⟩, ⟨b, .empty, .ref b₁⟩, ⟨b₁, .empty, .empty⟩]
    [(second, b), (head, g a)] := hmade.link (i := 1) (j := 2) rfl rfl hlink
  -- all of them are reached before the third allocation
  have hx : s₅.heap.purged.Rooted (g a) := hlinked.rooted (e := (head, g a)) (by simp)
  have hy : s₅.heap.purged.Rooted b := hlinked.rooted (e := (second, b)) (by simp)
  have hy₁ : s₅.heap.purged.Rooted b₁ := hlinked.rootedClean.noDangling.rooted_step hy
    ((hlinked.known.cell ⟨b, .empty, .ref b₁⟩ (by simp)).refersTo (List.mem_singleton_self b₁))
  obtain ⟨k, block, hblock, hmade, hnew⟩ := hlinked.allocate (by simp [hx, hy, hy₁]) hc
  obtain rfl := Address.block_three hblock hc₁ hc₂
  exact ⟨k (g a), k b, k b₁, hmade, hnew c₂ (by simp)⟩

/-- **The writes** that make the structure of six cells. -/
theorem writesOnlyKnown_of_stage {x y y₁ : Address} {rs : List (RootId × Address)}
    {t₁ t₂ t₃ t₄ t₅ t₆ t₇ t₈ t₉ t₁₀ : Store} (hmade : w.Stage s (unwritten x y y₁ c c₁ c₂) rs)
    (hlinked : 0 < s.values.count d.linked) (horphan : 0 < s.values.count d.orphan)
    (h₁ : Store.write x .car (.symbol d.hello) s = .ok () t₁)
    (h₂ : Store.write x .cdr (.ref y) t₁ = .ok () t₂) (h₃ : Store.write y .car (.int 1) t₂ = .ok () t₃)
    (h₄ : share y₁ .car d.linked t₃ = .ok () t₄) (h₅ : Store.write y₁ .cdr (.ref c) t₄ = .ok () t₅)
    (h₆ : Store.write c .car (.double threePointTwo) t₅ = .ok () t₆)
    (h₇ : Store.write c .cdr (.ref c₁) t₆ = .ok () t₇)
    (h₈ : Store.write c₁ .car (.string "world") t₇ = .ok () t₈)
    (h₉ : Store.write c₁ .cdr .empty t₈ = .ok () t₉) (h₁₀ : share c₂ .car d.orphan t₉ = .ok () t₁₀)
    (h₁₁ : Store.write c₂ .cdr .empty t₁₀ = .ok () s') :
    (w.making s (unwritten x y y₁ c c₁ c₂) rs).WritesOnlyKnown
      (d.known x y y₁ c c₁ c₂)
      ((s.values.retain d.linked).retain d.orphan) s' := by
  have hlive : 0 < (s.values.retain d.linked).count d.orphan := Values.count_pos_retain hlinked horphan
  have h : (w.making s (unwritten x y y₁ c c₁ c₂) rs).WritesOnlyKnown _ s.values s := .start hmade.known
  replace h := h.write (i := 0) rfl rfl rfl h₁
  replace h := h.write (i := 0) rfl rfl rfl h₂
  replace h := h.write (i := 1) rfl rfl rfl h₃
  replace h := h.share (i := 2) rfl hlinked h₄
  replace h := h.write (i := 2) rfl rfl rfl h₅
  replace h := h.write (i := 3) rfl rfl rfl h₆
  replace h := h.write (i := 3) rfl rfl rfl h₇
  replace h := h.write (i := 4) rfl rfl rfl h₈
  replace h := h.write (i := 4) rfl rfl rfl h₉
  replace h := h.share (i := 5) rfl hlive h₁₀
  exact h.write (i := 5) rfl rfl rfl h₁₁

/-- Nothing leads to the last cell: what the roots reach now is what they reached before, and the first
    two cells of the last block. -/
theorem not_rooted_of_writesOnlyKnown {u : Tenant} {values : Values} {rs : List (RootId × Address)}
    (hmade : w.Stage s (unwritten a b b₁ c c₁ c₂) rs) (hb : (second, b) ∈ rs)
    (hf : u.WritesOnlyKnown (d.known a b b₁ c c₁ c₂) values s')
    (hroots : s'.heap.purged.roots.addresses = s.heap.purged.roots.addresses ++ [c])
    (hget : ∀ q, u.store.heap.get? q = s.heap.get? q) (hout : ¬ s.heap.purged.Rooted c₂) :
    ¬ s'.heap.purged.Rooted c₂ := by
  have hrooted : s.heap.purged.Rooted b := hmade.rooted hb
  have hlinked : s.heap.purged.Rooted b₁ := hmade.rootedClean.noDangling.rooted_step hrooted
    ((hmade.known.cell ⟨b, .empty, .ref b₁⟩ (by simp [unwritten])).refersTo (List.mem_singleton_self b₁))
  have hclosed : ∀ p, s'.heap.purged.Rooted p → s.heap.purged.Rooted p ∨ p = c ∨ p = c₁ := by
    refine (hf.known.purged.rootedClean (W := {p | s.heap.purged.Rooted p ∨ p = c ∨ p = c₁})
      hmade.rootedClean (fun p hp => ?_) (fun _ => Or.inl) fun p hp => ?_).2
    · rw [hroots] at hp
      refine (List.mem_append.1 hp).imp hmade.rootedClean.noDangling.rooted_root fun hp => ?_
      exact Or.inl (List.mem_singleton.1 hp)
    · by_cases hpin : p ∈ (d.known a b b₁ c c₁ c₂).map (·.address)
      · obtain ⟨e, he, rfl⟩ := List.mem_map.1 hpin
        refine Or.inr ⟨e, he, rfl, ?_⟩
        simp only [known, List.mem_cons, List.not_mem_nil, or_false] at he
        rcases he with rfl | rfl | rfl | rfl | rfl | rfl <;>
          simp [KnownCell.references, Slot.ref?, hrooted, hlinked]
      · refine Or.inl ⟨hp.resolve_right ?_, (hf.others p hpin).trans (hget p)⟩
        rintro (rfl | rfl) <;> simp [known] at hpin
  have hnodup := hf.known.nodup
  simp only [known, List.map_cons, List.map_nil, List.nodup_cons, List.mem_cons, not_or] at hnodup
  intro hc₂
  rcases hclosed c₂ hc₂ with hc₂ | rfl | rfl
  · exact hout hc₂
  · simp at hnodup
  · simp at hnodup

/-- The structure has been made of six cells and three roots, and nothing leads to the last cell. -/
structure Assembled (w : Tenant) (d : Sample) (s' : Store) (a b b₁ c c₁ c₂ : Address) : Prop where
  steps : Relation.ReflTransGen (Tenant.Step {}) w (w.assembled d s')
  known : s'.heap.HasKnown (d.known a b b₁ c c₁ c₂)
  roots : ∀ e ∈ [(d.fourth, c), (d.second, b), (d.head, a)],
    s'.heap.roots.get? e.1 = some e.2 ∧ w.own e.1 ∉ w.leased
  counts : ∀ v, 0 < w.handles.count v →
    s'.values.count v ≤ w.store.values.count v + [d.linked, d.orphan].count v
  hidden : ¬ s'.heap.purged.Rooted c₂
  young : ¬ c₂.isOld

/-- **Whatever the three allocations have moved**, the structure is made. -/
theorem exists_assembled (hbalanced : w.Balanced) (hw : w.Orderly) (hn : w.store.heap.purged.RootedClean)
    (hlinked : 0 < w.handles.count linked) (horphan : 0 < w.handles.count orphan)
    (h : (assemble hello linked orphan).run w.store = .ok (.ok d) s') :
    d.linked = linked ∧ d.orphan = orphan ∧ ∃ a b b₁ c c₁ c₂, d.Assembled w s' a b b₁ c c₁ c₂ := by
  unfold assemble at h
  obtain ⟨a, s₁, ha, h⟩ := Attempt.bind_ok h
  obtain ⟨head, s₂, hhead, h⟩ := Attempt.lift_bind_eq_ok h
  obtain ⟨b, s₃, hb, h⟩ := Attempt.bind_ok h
  obtain ⟨second, s₄, hsecond, h⟩ := Attempt.lift_bind_eq_ok h
  obtain ⟨b₁, hb₁, h⟩ := Attempt.fits_bind_eq_ok h
  obtain ⟨_, s₅, hlink, h⟩ := Attempt.lift_bind_eq_ok h
  obtain ⟨c, s₆, hc, h⟩ := Attempt.bind_ok h
  obtain ⟨fourth, s₇, hfourth, h⟩ := Attempt.lift_bind_eq_ok h
  obtain ⟨x, _, hx, h⟩ := Attempt.bind_ok h
  obtain ⟨y, _, hy, h⟩ := Attempt.bind_ok h
  obtain ⟨cell, _, hcell, h⟩ := Attempt.lift_bind_eq_ok h
  obtain ⟨y₁, _, hy₁, h⟩ := Attempt.bind_ok h
  obtain ⟨c₁, hc₁, h⟩ := Attempt.fits_bind_eq_ok h
  obtain ⟨c₂, hc₂, h⟩ := Attempt.fits_bind_eq_ok h
  obtain ⟨x', y', y₁', hmade, hhidden, hyoung⟩ := exists_stage hbalanced hw hn (Attempt.ofHeap_ok ha)
    hhead (Attempt.ofHeap_ok hb) hsecond hb₁ hlink (Attempt.ofHeap_ok hc) hc₁ hc₂
  obtain ⟨hrooted, haddresses⟩ := hmade.root (i := 3) rfl hfourth
  have hget : ∀ q, s₇.heap.get? q = s₆.heap.get? q := by
    obtain ⟨-, -, rfl⟩ := Store.addRoot_eq_ok_iff.1 hfourth
    exact fun _ => rfl
  -- the roots and the link give the cells where they are now
  rw [run_rooted (hrooted.roots (head, x') (by simp)).1] at hx
  cases hx
  rw [run_rooted (hrooted.roots (second, y') (by simp)).1] at hy
  cases hy
  obtain ⟨cell', hcell', -, -, hcdr⟩ := hrooted.known.cell ⟨y', .empty, .ref y₁'⟩ (by simp [unwritten])
  rw [Store.fetch, hcell'] at hcell
  cases hcell
  rw [hcdr] at hy₁
  cases hy₁
  obtain ⟨_, t₁, h₁, h⟩ := Attempt.lift_bind_eq_ok h
  obtain ⟨_, t₂, h₂, h⟩ := Attempt.lift_bind_eq_ok h
  obtain ⟨_, t₃, h₃, h⟩ := Attempt.lift_bind_eq_ok h
  obtain ⟨_, t₄, h₄, h⟩ := Attempt.lift_bind_eq_ok h
  obtain ⟨_, t₅, h₅, h⟩ := Attempt.lift_bind_eq_ok h
  obtain ⟨_, t₆, h₆, h⟩ := Attempt.lift_bind_eq_ok h
  obtain ⟨_, t₇, h₇, h⟩ := Attempt.lift_bind_eq_ok h
  obtain ⟨_, t₈, h₈, h⟩ := Attempt.lift_bind_eq_ok h
  obtain ⟨_, t₉, h₉, h⟩ := Attempt.lift_bind_eq_ok h
  obtain ⟨_, t₁₀, h₁₀, h⟩ := Attempt.lift_bind_eq_ok h
  obtain ⟨_, t₁₁, h₁₁, h⟩ := Attempt.lift_bind_eq_ok h
  cases h
  have hcounts := fun v (hv : 0 < w.handles.count v) =>
    Tenant.count_le_of_steps hrooted.steps hbalanced (Set.mem_univ v) hv
  have hlive : ∀ v, 0 < w.handles.count v → 0 < s₇.values.count v := fun v hv => by
    have hcount : s₇.values.count v = _ + w.handles.count v := hrooted.balanced.count_eq v
    omega
  have hf := writesOnlyKnown_of_stage (d := ⟨head, second, fourth, hello, linked, orphan⟩) hrooted
    (hlive linked hlinked) (hlive orphan horphan) h₁ h₂ h₃ h₄ h₅ h₆ h₇ h₈ h₉ h₁₀ h₁₁
  refine ⟨rfl, rfl, x', y', _, c, c₁, c₂, ?_, hf.known, fun e he => ?_, fun v hv => ?_, ?_, hyoung⟩
  · have hsteps : Relation.ReflTransGen (Tenant.Step {}) w _ := Tenant.steps_mono hrooted.steps
      subset_rfl subset_rfl (Set.empty_subset _)
    exact hsteps.trans hf.steps
  · rw [hf.roots]
    exact hrooted.roots e he
  · obtain ⟨hle, -⟩ := hcounts v hv
    have hcount : s'.values.count v = s₇.values.count v + [linked, orphan].count v :=
      (congrArg (·.count v) hf.values).trans
        (Values.count_retain_retain (hlive linked hlinked) (hlive orphan horphan))
    change s₇.values.count v ≤ w.store.values.count v at hle
    show s'.values.count v ≤ w.store.values.count v + [linked, orphan].count v
    omega
  · refine not_rooted_of_writesOnlyKnown hmade (List.mem_cons_self) hf ?_ hget hhidden
    rw [← haddresses]
    exact congrArg (·.purge.1.addresses) hf.roots

/-! ## The files -/

/-- A file that has just been opened has one reference, which the client holds. -/
theorem count_openFile {t : Tenant} (ht : t.Balanced) {path : String} {v : ValueId}
    (ho : openFile path t.store = .ok v s') : t.store.values.count v = 0 ∧ t.handles.count v = 0 ∧
      ∀ u, s'.values.count u = t.store.values.count u + if u = v then 1 else 0 := by
  cases ho
  have hzero : t.store.values.count ⟨t.store.values.entries.size⟩ = 0 :=
    Values.count_of_unknown (by simp)
  have hcount := ht.count_eq ⟨t.store.values.entries.size⟩
  refine ⟨hzero, ?_, Values.count_add t.store.values (.file path)⟩
  show t.handles.count ⟨t.store.values.entries.size⟩ = 0
  omega

end Sample

/-- The client when it has asked for the sample structure and got it. -/
def Tenant.building (t : Tenant) (d : Sample) (s' : Store) : Tenant :=
  { t with
    store := s'
    handles := d.orphan :: d.linked :: t.handles
    issued := t.own d.fourth :: t.own d.second :: t.own d.head :: t.issued
    allocated := t.allocated + 6 }

namespace Sample

variable {t : Tenant} {s' : Store} {d : Sample} {symbols symbols' : SymbolTable}

/-- The structure has just been made, and each of the files has two references. -/
structure Built (t : Tenant) (d : Sample) (s' : Store) (a b b₁ c c₁ c₂ : Address) : Prop where
  steps : Relation.ReflTransGen (Tenant.Step {}) t (t.building d s')
  known : s'.heap.HasKnown (d.known a b b₁ c c₁ c₂)
  roots : ∀ e ∈ [(d.fourth, c), (d.second, b), (d.head, a)],
    s'.heap.roots.get? e.1 = some e.2 ∧ t.own e.1 ∉ t.leased
  linked : s'.values.count d.linked = 2 ∧ (t.building d s').handles.count d.linked = 1
  orphan : s'.values.count d.orphan = 2 ∧ (t.building d s').handles.count d.orphan = 1
  hidden : ¬ s'.heap.purged.Rooted c₂
  young : ¬ c₂.isOld

/-- **Making the structure**, when it comes to an end. -/
theorem exists_built (hb : t.Balanced) (ht : t.Orderly) (hn : t.store.heap.purged.RootedClean)
    (h : build symbols t.store = .ok (symbols', .ok d) s') :
    ∃ a b b₁ c c₁ c₂, d.Built t s' a b b₁ c c₁ c₂ := by
  unfold build at h
  obtain ⟨linked, s₁, hopen, h⟩ := Action.bind_eq_ok_iff.1 h
  obtain ⟨orphan, s₂, hopen', h⟩ := Action.bind_eq_ok_iff.1 h
  obtain ⟨r, s₃, hassemble, h⟩ := Action.bind_eq_ok_iff.1 h
  cases r with
  | error e =>
    obtain ⟨_, _, -, h⟩ := Action.bind_eq_ok_iff.1 h
    cases h
  | ok d' =>
    cases h
    let u : Tenant := { t with store := s₁, handles := linked :: t.handles }
    let w : Tenant := { u with store := s₂, handles := orphan :: u.handles }
    have hfirst : Tenant.Step {} t u := .openFile hopen
    have hsecond : Tenant.Step {} u w := .openFile hopen'
    have hu : u.Balanced := hfirst.balanced hb
    have hheap : s₂.heap = t.store.heap := by
      cases hopen
      cases hopen'
      rfl
    obtain ⟨hzero, hheld, hcount⟩ := count_openFile hb hopen
    obtain ⟨hzero', hheld', hcount'⟩ := count_openFile hu hopen'
    have hne : linked ≠ orphan := fun heq => by
      have hone := hcount linked
      rw [if_pos rfl, heq] at hone
      rw [show s₁.values.count orphan = 0 from hzero'] at hone
      cases hone
    have hheld' : t.handles.count orphan = 0 := by
      rwa [show u.handles = linked :: t.handles from rfl, List.count_cons_of_ne hne] at hheld'
    have hhandles : w.handles.count linked = 1 ∧ w.handles.count orphan = 1 := by
      simp [w, u, hne, hne.symm, hheld, hheld']
    obtain ⟨rfl, rfl, a, b, b₁, c, c₁, c₂, hmade⟩ := exists_assembled (w := w) (hsecond.balanced hu)
      (hsecond.effect.orderly (hfirst.effect.orderly ht)) (hheap ▸ hn) (by omega) (by omega) hassemble
    have hown := Tenant.own_of_steps ((Relation.ReflTransGen.single hfirst).tail hsecond)
    have hsame : w.assembled d s' = t.building d s' := by
      rw [Tenant.assembled, Tenant.building, hown, hown, hown]
    have hsteps : Relation.ReflTransGen (Tenant.Step {}) t (t.building d s') :=
      hsame ▸ ((Relation.ReflTransGen.single hfirst).tail hsecond).trans hmade.steps
    have hbalanced : (t.building d s').Balanced := Tenant.balanced_of_steps hsteps hb
    -- each file is in the hands of the client and in one cell
    have htwo : ∀ v p c, w.handles.count v = 1 → w.store.values.count v = 1 →
        [d.linked, d.orphan].count v = 1 → s'.heap.get? p = some c → c.car = .value v →
          s'.values.count v = 2 := by
      intro v p c hheld hone honce hc hcar
      have hmost := hmade.counts v (by omega)
      have hleast : 2 ≤ s'.values.count v := hbalanced.two_le_count
        (show 0 < w.handles.count v by omega) hc hcar
      omega
    obtain ⟨x, hx, -, hxcar, -⟩ := hmade.known.cell ⟨b₁, .value d.linked, .ref c⟩ (by simp [known])
    obtain ⟨y, hy, -, hycar, -⟩ := hmade.known.cell ⟨c₂, .value d.orphan, .empty⟩ (by simp [known])
    have hcounts : w.store.values.count d.linked = 1 ∧ w.store.values.count d.orphan = 1 := by
      constructor
      · show s₂.values.count d.linked = 1
        rw [hcount', if_neg hne]
        show s₁.values.count d.linked + 0 = 1
        rw [hcount, hzero, if_pos rfl]
      · show s₂.values.count d.orphan = 1
        rw [hcount', hzero', if_pos rfl]
    refine ⟨a, b, b₁, c, c₁, c₂, hsteps, hmade.known, fun e he => ?_, ⟨?_, hhandles.1⟩, ⟨?_, hhandles.2⟩,
      hmade.hidden, hmade.young⟩
    · rw [← hown]
      exact hmade.roots e he
    · exact htwo _ _ _ hhandles.1 hcounts.1 (by simp [hne.symm]) hx hxcar
    · exact htwo _ _ _ hhandles.2 hcounts.2 (by simp [hne]) hy hycar

end Sample

end Tenure
