/-
  Tenure — settings given as a TOML document.

  * `Settings.ofEntries`: settings from keys and values in the order of the text.
    The first key that is unknown or has no count for its value is the error.
  * `Settings.ofText`: settings from a document, with the high-water mark if the
    document gives one, because that one outlasts a later change of capacity.  How a
    text is taken for a document is left to a `Toml.Parse`.
-/
import Tenure.Settings.Basic
import Tenure.Toml.Value

namespace Tenure.Settings

open Toml

/-- Settings that are being read: the mark is put in its place at the end. -/
structure Draft where
  settings : Settings := .standard
  highWater : Option Nat := none
  deriving DecidableEq, Repr

/-- The count that a value stands for. -/
def count (key : String) (value : Value) : Except SettingsError Nat :=
  match value.integer? with
  | some n => if 0 ≤ n then .ok n.toNat else .error (.badValue key)
  | none => .error (.badValue key)

/-- Takes over one key. -/
def Draft.take (d : Draft) (key : String) (value : Value) : Except SettingsError Draft :=
  match key with
  | "young_capacity" => do
    return { d with settings := d.settings.withYoungCapacity (← count key value) }
  | "old_capacity" => do
    return { d with settings := d.settings.withOldCapacity (← count key value) }
  | "old_high_water" => do return { d with highWater := some (← count key value) }
  | "promotion_threshold" => do
    let survivals ← count key value
    if survivals < 256 then
      return { d with settings := d.settings.withPromotionThreshold survivals }
    else .error (.badValue key)
  | _ => .error (.unknownKey key)

/-- The settings of a draft, if they are consistent, and the mark that was given. -/
def Draft.finish (d : Draft) : Except SettingsError (Settings × Option Nat) := do
  let settings := match d.highWater with
    | some cells => d.settings.withOldHighWater cells
    | none => d.settings
  settings.validate
  return (settings, d.highWater)

/-- Settings from keys and values in their order. -/
def ofEntries (entries : List (String × Value)) : Except SettingsError (Settings × Option Nat) := do
  let draft ← entries.foldlM (fun d (key, value) => d.take key value) ({} : Draft)
  draft.finish

/-- Settings from a document, with the high-water mark if it is given there. -/
def ofText (parse : Parse) (text : String) : Except SettingsError (Settings × Option Nat) :=
  match parse text with
  | none => .error .malformed
  | some (.table entries) => ofEntries entries
  | some _ => .error .notATable

end Tenure.Settings
