/-
  Tenure — the sizes of the generations and the policy of promotion.

  * `Settings`: the capacities, the mark above which the old generation is
    compacted, and the number of collections after which a cell is promoted.
  * `Settings.validate`: the conditions under which a heap can be built, checked
    in a fixed order.
  * `SettingsError`: what can be wrong with settings and with the text that gives
    them.
-/

namespace Tenure

/-- A condition that settings do not meet. -/
inductive Inconsistency
  | youngEmpty
  | capacityTooLarge
  | markAboveCapacity (mark capacity : Nat)
  | thresholdOutside (threshold : Nat)
  deriving DecidableEq, Repr

/-- The wording of a condition that is not met. -/
def Inconsistency.message : Inconsistency → String
  | .youngEmpty => "young capacity must be at least one cell"
  | .capacityTooLarge => "capacities must fit in 32 bits"
  | .markAboveCapacity mark capacity =>
    s!"old high-water mark {mark} exceeds old capacity {capacity}"
  | .thresholdOutside threshold => s!"promotion threshold {threshold} is outside 1..=3"

/-- What can be wrong with settings. -/
inductive SettingsError
  /-- The text is no TOML document. -/
  | malformed
  /-- The document is no table. -/
  | notATable
  /-- A known key has a value that is no count. -/
  | badValue (key : String)
  | unknownKey (key : String)
  | invalid (reason : Inconsistency)
  deriving DecidableEq, Repr

/-- The wording of a settings error. -/
def SettingsError.message : SettingsError → String
  | .malformed => "invalid heap settings TOML"
  | .notATable => "heap settings must be a TOML table"
  | .badValue key => s!"setting '{key}' must be a non-negative integer"
  | .unknownKey key => s!"unknown heap setting '{key}'"
  | .invalid reason => s!"inconsistent heap settings: {reason.message}"

/-- Sizes in cells, and the policy of promotion. -/
structure Settings where
  /-- The capacity of each of the two young buffers. -/
  youngCapacity : Nat
  /-- The capacity of the old generation. -/
  oldCapacity : Nat
  /-- The old generation is compacted when it holds more cells than this. -/
  oldHighWater : Nat
  /-- The number of young collections that a cell survives before it is promoted. -/
  promotionThreshold : Nat
  deriving DecidableEq, Repr, Inhabited

namespace Settings

/-- The settings of a heap of which nothing special is asked. -/
def standard : Settings where
  youngCapacity := 10240
  oldCapacity := 40960
  oldHighWater := 36864
  promotionThreshold := 2

/-- Nine tenths of a capacity, which is where the high-water mark goes unless it is given. -/
def markFor (capacity : Nat) : Nat := capacity / 10 * 9

/-- Sets the young capacity. -/
def withYoungCapacity (s : Settings) (cells : Nat) : Settings := { s with youngCapacity := cells }

/-- Sets the old capacity, and the high-water mark in proportion. -/
def withOldCapacity (s : Settings) (cells : Nat) : Settings :=
  { s with oldCapacity := cells, oldHighWater := markFor cells }

/-- Sets the high-water mark. -/
def withOldHighWater (s : Settings) (cells : Nat) : Settings := { s with oldHighWater := cells }

/-- Sets the number of collections before promotion. -/
def withPromotionThreshold (s : Settings) (survivals : Nat) : Settings :=
  { s with promotionThreshold := survivals }

/-- The number that no capacity reaches, two to the power of 32. -/
def capacityLimit : Nat := 4294967296

/-- The conditions for settings that a heap can be built with. -/
def Valid (s : Settings) : Prop :=
  0 < s.youngCapacity ∧ s.youngCapacity < capacityLimit ∧ s.oldCapacity < capacityLimit ∧
    s.oldHighWater ≤ s.oldCapacity ∧ 1 ≤ s.promotionThreshold ∧ s.promotionThreshold ≤ 3

instance (s : Settings) : Decidable s.Valid := inferInstanceAs (Decidable (_ ∧ _))

/-- The first condition that the settings do not meet. -/
def inconsistency? (s : Settings) : Option Inconsistency :=
  if s.youngCapacity = 0 then some .youngEmpty
  else if capacityLimit ≤ s.youngCapacity ∨ capacityLimit ≤ s.oldCapacity then
    some .capacityTooLarge
  else if s.oldCapacity < s.oldHighWater then
    some (.markAboveCapacity s.oldHighWater s.oldCapacity)
  else if s.promotionThreshold < 1 ∨ 3 < s.promotionThreshold then
    some (.thresholdOutside s.promotionThreshold)
  else none

/-- Refuses settings that a heap cannot be built with. -/
def validate (s : Settings) : Except SettingsError Unit :=
  match s.inconsistency? with
  | some reason => .error (.invalid reason)
  | none => .ok ()

theorem inconsistency?_eq_none_iff {s : Settings} : s.inconsistency? = none ↔ s.Valid := by
  unfold inconsistency? Valid capacityLimit
  split
  · simp; omega
  · split
    · simp; omega
    · split
      · simp; omega
      · split <;> simp <;> omega

end Settings

end Tenure
