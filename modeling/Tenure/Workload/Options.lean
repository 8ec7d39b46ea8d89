/-
  Tenure — what a run is asked to do.

  * `Options`: the size of the exercise, the settings of the heap as far as they
    are given, and what is to be shown.
  * `Files`: reading files, as a function from paths.
  * `Options.settings`: the settings of the heap.  Options override the file, and the
    file overrides the standard.  A high-water mark that is given outlasts an option
    for the old capacity; otherwise the mark follows the capacity.
-/
import Tenure.Settings.Document
import Tenure.Workload.Error

namespace Tenure

/-- What a run is asked to do. -/
structure Options where
  /-- Lists to allocate. -/
  iterations : Nat := 2000
  /-- Cells in each list. -/
  listLength : Nat := 20
  /-- Every so many lists one is retained; none if zero. -/
  retainEvery : Nat := 0
  /-- The retained lists are abandoned when there are so many; never if zero. -/
  retainWindow : Nat := 0
  /-- The path of a file with settings. -/
  config : Option String := none
  youngCapacity : Option Nat := none
  oldCapacity : Option Nat := none
  oldHighWater : Option Nat := none
  promotionThreshold : Option Nat := none
  /-- Whether to show the figures of the run. -/
  statistics : Bool := false
  /-- Whether to show the heap at the end. -/
  dumpHeap : Bool := false
  deriving DecidableEq, Repr, Inhabited

/-- The contents of files by their paths. -/
abbrev Files := String → Except FileError ByteArray

/-- The text in a file. -/
def Files.text (files : Files) (path : String) : Except FileError String := do
  match String.fromUTF8? (← files path) with
  | some text => return text
  | none => throw .notText

namespace Options

/-- Settings from a file, or the standard, with the high-water mark if the file gives one. -/
def base (o : Options) (parse : Toml.Parse) (files : Files) :
    Except RunError (Settings × Option Nat) :=
  match o.config with
  | none => .ok (.standard, none)
  | some path =>
    match files.text path with
    | .error error => .error (.file error)
    | .ok text =>
      match Settings.ofText parse text with
      | .error error => .error (.settings error)
      | .ok found => .ok found

/-- Settings overridden by the options.  `highWater` is the mark that was given before. -/
def override (o : Options) (s : Settings) (highWater : Option Nat) : Settings :=
  let s := (o.youngCapacity.map s.withYoungCapacity).getD s
  let s := (o.oldCapacity.map s.withOldCapacity).getD s
  let s := ((o.oldHighWater <|> highWater).map s.withOldHighWater).getD s
  (o.promotionThreshold.map s.withPromotionThreshold).getD s

/-- The settings of the heap for a run. -/
def settings (o : Options) (parse : Toml.Parse) (files : Files) : Except RunError Settings := do
  let (s, highWater) ← o.base parse files
  let s := o.override s highWater
  match s.validate with
  | .ok () => return s
  | .error error => throw (.settings error)

end Options

end Tenure
