/-
  Tenure — totals.

  * `Counters.peak`, `CollectionSummary.most`: the largest total, and the most that a
    report adds to one.
  * `record_cases`, `recordAbandoned_cases`: a report is added to the totals unless one of
    them would run over.
  * `peak_recorded_le`: how much higher the totals are then.
-/
import Tenure.Counters

namespace Tenure

namespace CollectionSummary

/-- The most that a report adds to a total. -/
def most (r : CollectionSummary) : Nat :=
  max 1 (max (max r.survivors r.promoted) (max r.reclaimed r.oldReclaimed))

theorem most_le_iff {r : CollectionSummary} {n : Nat} :
    r.most ≤ n ↔ 1 ≤ n ∧ r.survivors ≤ n ∧ r.promoted ≤ n ∧ r.reclaimed ≤ n ∧ r.oldReclaimed ≤ n := by
  simp only [most, Nat.max_le, and_assoc]

end CollectionSummary

namespace Counters

/-- The largest of the totals. -/
def peak (c : Counters) : Nat :=
  max (max (max c.youngCollections c.oldCollections) (max c.copied c.promoted))
    (max (max c.reclaimed c.oldReclaimed) c.failedCollections)

theorem peak_le_iff {c : Counters} {n : Nat} :
    c.peak ≤ n ↔ c.youngCollections ≤ n ∧ c.oldCollections ≤ n ∧ c.copied ≤ n ∧ c.promoted ≤ n ∧
      c.reclaimed ≤ n ∧ c.oldReclaimed ≤ n ∧ c.failedCollections ≤ n := by
  simp only [peak, Nat.max_le, and_assoc]

theorem tally_cases (total : Counters → Nat) (update : Counters → Nat → Counters) (n : Nat)
    (c : Counters) : tally total update n c = .ok () (update c (total c + n)) ∨
      (Word.limit ≤ total c + n ∧ tally total update n c = .error .additionOverflow c) := by
  unfold tally Word.add
  by_cases h : total c + n < Word.limit
  · simp [h]
  · simp [h, Nat.not_lt.1 h]

/-- The counters after a collection. -/
def recorded (report : CollectionSummary) (c : Counters) : Counters :=
  { c with
    youngCollections := c.youngCollections + 1
    oldCollections := if report.oldCollected then c.oldCollections + 1 else c.oldCollections
    copied := c.copied + report.survivors
    promoted := c.promoted + report.promoted
    reclaimed := c.reclaimed + report.reclaimed
    oldReclaimed := c.oldReclaimed + report.oldReclaimed }

/-- The counters after a collection that was given up. -/
def abandoned (c : Counters) : Counters := { c with failedCollections := c.failedCollections + 1 }

theorem oldCollections_recorded_le (report : CollectionSummary) (c : Counters) :
    (c.recorded report).oldCollections ≤ c.oldCollections + 1 := by
  simp only [recorded]
  split <;> omega

theorem peak_recorded_le (report : CollectionSummary) (c : Counters) :
    (c.recorded report).peak ≤ c.peak + report.most := by
  obtain ⟨h₁, h₂, h₃, h₄, h₅, h₆, h₇⟩ := peak_le_iff.1 (Nat.le_refl c.peak)
  obtain ⟨g₁, g₂, g₃, g₄, g₅⟩ := CollectionSummary.most_le_iff.1 (Nat.le_refl report.most)
  have hold : (c.recorded report).oldCollections ≤ c.peak + report.most :=
    Nat.le_trans (oldCollections_recorded_le report c) (Nat.add_le_add h₂ g₁)
  exact peak_le_iff.2 ⟨Nat.add_le_add h₁ g₁, hold, Nat.add_le_add h₃ g₂, Nat.add_le_add h₄ g₃,
    Nat.add_le_add h₅ g₄, Nat.add_le_add h₆ g₅, Nat.le_add_right_of_le h₇⟩

theorem peak_abandoned_le (c : Counters) : c.abandoned.peak ≤ c.peak + 1 := by
  obtain ⟨h₁, h₂, h₃, h₄, h₅, h₆, h₇⟩ := peak_le_iff.1 (Nat.le_refl c.peak)
  have hkeep : ∀ {n}, n ≤ c.peak → n ≤ c.peak + 1 := Nat.le_succ_of_le
  exact peak_le_iff.2 ⟨hkeep h₁, hkeep h₂, hkeep h₃, hkeep h₄, hkeep h₅, hkeep h₆, Nat.succ_le_succ h₇⟩

/-- **A report is added to the totals**, unless one of them would run over. -/
theorem record_cases (report : CollectionSummary) (c : Counters) :
    record report c = .ok () (c.recorded report) ∨
      (Word.limit ≤ (c.recorded report).peak ∧ ∃ c', record report c = .error .additionOverflow c') := by
  obtain ⟨h₁, h₂, h₃, h₄, h₅, h₆, -⟩ := peak_le_iff.1 (Nat.le_refl (c.recorded report).peak)
  generalize (c.recorded report).peak = m at *
  have step : ∀ {x y : Action Counters Unit} {c c₁ c₂ : Counters},
      (x c = .ok () c₁ ∨ (Word.limit ≤ m ∧ ∃ c', x c = .error .additionOverflow c')) →
      (y c₁ = .ok () c₂ ∨ (Word.limit ≤ m ∧ ∃ c', y c₁ = .error .additionOverflow c')) →
      ((x >>= fun _ => y) c = .ok () c₂ ∨
        (Word.limit ≤ m ∧ ∃ c', (x >>= fun _ => y) c = .error .additionOverflow c')) := by
    rintro x y c c₁ c₂ (hx | ⟨hle, c', hx⟩) hy
    · simpa only [bind, EStateM.bind, hx] using hy
    · exact Or.inr ⟨hle, c', by simp only [bind, EStateM.bind, hx]⟩
  have tally' : ∀ {total : Counters → Nat} {k : Nat} {c : Counters} (update), total c + k ≤ m →
      (tally total update k c = .ok () (update c (total c + k)) ∨
        (Word.limit ≤ m ∧ ∃ c', tally total update k c = .error .additionOverflow c')) := by
    intro total k c update hle
    exact (tally_cases total update k c).imp_right fun h => ⟨Nat.le_trans h.1 hle, c, h.2⟩
  obtain ⟨survivors, promoted, reclaimed, collected, oldReclaimed⟩ := report
  cases collected with
  | true =>
    exact step (tally' _ h₁) (step (tally' _ h₂) (step (tally' _ h₃)
      (step (tally' _ h₄) (step (tally' _ h₅) (tally' _ h₆)))))
  | false =>
    exact step (tally' _ h₁) (step (tally' _ h₃)
      (step (tally' _ h₄) (step (tally' _ h₅) (tally' _ h₆))))

theorem recordAbandoned_cases (c : Counters) : recordAbandoned c = .ok () c.abandoned ∨
    (Word.limit ≤ c.abandoned.peak ∧ recordAbandoned c = .error .additionOverflow c) := by
  have hle : c.abandoned.failedCollections ≤ c.abandoned.peak :=
    (peak_le_iff.1 (Nat.le_refl _)).2.2.2.2.2.2
  exact (tally_cases failedCollections _ 1 c).imp_right fun h => ⟨Nat.le_trans h.1 hle, h.2⟩

end Counters

end Tenure
