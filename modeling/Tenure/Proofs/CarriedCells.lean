/-
  Tenure — cells that are carried over.

  Both halves of a collection move cells: the compaction moves old cells about in
  their buffer, and the young cells leave theirs.  What either has to achieve is
  the same, so it is stated once.

  * `Carries`: the cells at certain addresses are found again, each at an address
    of its own, and there are no others.
  * `Carries.insert`, `Carries.move`: one more cell is carried over, or one that was
    carried over moves on to a free place.
-/
import Mathlib.Data.Set.Function
import Tenure.Relocation

namespace Tenure

/-- The cells that `source` has at the addresses in `kept` are what `target` has, each at the
    address that `f` gives for its own. -/
structure Carries (kept : Set Address) (source : Address → Option Cell) (f : Address → Address)
    (target : Address → Option Cell) : Prop where
  inside : ∀ p ∈ kept, (source p).isSome
  cell : ∀ p ∈ kept, target (f p) = source p
  injective : Set.InjOn f kept
  onto : ∀ q, (target q).isSome → ∃ p ∈ kept, f p = q

namespace Carries

variable {kept : Set Address} {source target : Address → Option Cell} {f : Address → Address}

/-- Nothing is moved. -/
theorem refl (h : ∀ p, p ∈ kept ↔ (source p).isSome) : Carries kept source id source where
  inside p hp := (h p).1 hp
  cell _ _ := rfl
  injective := Set.injOn_id kept
  onto q hq := ⟨q, (h q).2 hq, rfl⟩

/-- Addresses that are free receive no cell. -/
theorem ne_of_free (hc : Carries kept source f target) {p q : Address} (hp : p ∈ kept)
    (hq : target q = none) : f p ≠ q := by
  rintro rfl
  have := hc.inside p hp
  rw [← hc.cell p hp, hq] at this
  cases this

theorem congr_source (hc : Carries kept source f target) {source' : Address → Option Cell}
    (h : ∀ p ∈ kept, source' p = source p) : Carries kept source' f target where
  inside p hp := by rw [h p hp]; exact hc.inside p hp
  cell p hp := by rw [h p hp]; exact hc.cell p hp
  injective := hc.injective
  onto := hc.onto

theorem bijOn (hc : Carries kept source f target) : Set.BijOn f kept {q | (target q).isSome} := by
  refine ⟨fun p hp => ?_, hc.injective, fun q hq => hc.onto q hq⟩
  show (target (f p)).isSome
  rw [hc.cell p hp]
  exact hc.inside p hp

/-- One more cell is carried over, to a place that was free. -/
theorem insert (hc : Carries kept source f target) {p q : Address} {c : Cell} (hp : p ∉ kept)
    (hs : source p = some c) (hq : target q = none) {f' : Address → Address} (hf : f' p = q)
    (hf' : ∀ a, a ≠ p → f' a = f a) {target' : Address → Option Cell} (ht : target' q = some c)
    (ht' : ∀ a, a ≠ q → target' a = target a) : Carries (Insert.insert p kept) source f' target' := by
  have hne : ∀ {a}, a ∈ kept → a ≠ p := fun ha h => hp (h ▸ ha)
  refine ⟨?_, ?_, ?_, ?_⟩
  · rintro a (rfl | ha)
    · rw [hs]; rfl
    · exact hc.inside a ha
  · rintro a (rfl | ha)
    · rw [hf, ht, hs]
    · rw [hf' a (hne ha), ht' _ (hc.ne_of_free ha hq), hc.cell a ha]
  · rintro a (rfl | ha) b (rfl | hb) hab
    · rfl
    · rw [hf, hf' b (hne hb)] at hab
      exact absurd hab.symm (hc.ne_of_free hb hq)
    · rw [hf, hf' a (hne ha)] at hab
      exact absurd hab (hc.ne_of_free ha hq)
    · rw [hf' a (hne ha), hf' b (hne hb)] at hab
      exact hc.injective ha hb hab
  · intro a ha
    by_cases haq : a = q
    · exact ⟨p, Or.inl rfl, hf.trans haq.symm⟩
    · rw [ht' a haq] at ha
      obtain ⟨b, hb, rfl⟩ := hc.onto a ha
      exact ⟨b, Or.inr hb, hf' b (hne hb)⟩

/-- A cell that was carried over moves on to a place that was free. -/
theorem move (hc : Carries kept source f target) {p q : Address} (hp : p ∈ kept)
    (hq : target q = none) {f' : Address → Address} (hf : f' p = q)
    (hf' : ∀ a, a ≠ p → f' a = f a) {target' : Address → Option Cell}
    (ht : target' q = target (f p)) (hold : target' (f p) = none)
    (ht' : ∀ a, a ≠ q → a ≠ f p → target' a = target a) : Carries kept source f' target' := by
  have away : ∀ {a}, a ∈ kept → a ≠ p → f a ≠ f p := fun ha hap h => hap (hc.injective ha hp h)
  refine ⟨hc.inside, ?_, ?_, ?_⟩
  · intro a ha
    by_cases hap : a = p
    · subst hap
      rw [hf, ht, hc.cell a ha]
    · rw [hf' a hap, ht' _ (hc.ne_of_free ha hq) (away ha hap), hc.cell a ha]
  · intro a ha b hb hab
    by_cases hap : a = p <;> by_cases hbp : b = p
    · rw [hap, hbp]
    · rw [hap, hf, hf' b hbp] at hab
      exact absurd hab.symm (hc.ne_of_free hb hq)
    · rw [hbp, hf, hf' a hap] at hab
      exact absurd hab (hc.ne_of_free ha hq)
    · rw [hf' a hap, hf' b hbp] at hab
      exact hc.injective ha hb hab
  · intro a ha
    by_cases haq : a = q
    · exact ⟨p, hp, hf.trans haq.symm⟩
    · have hap : a ≠ f p := by rintro rfl; rw [hold] at ha; cases ha
      rw [ht' a haq hap] at ha
      obtain ⟨b, hb, rfl⟩ := hc.onto a ha
      exact ⟨b, hb, hf' b fun hbp => hap (by rw [hbp])⟩

end Carries

end Tenure
