/-
  Tenure — elapsed time.

  A time is a number of seconds and a number of nanoseconds below a second.  It is
  shown in seconds with nine places, from the floating-point number nearest to it
  in the sense of `Duration.seconds`.
-/
import Tenure.Text.Basic
import Tenure.Text.Dyadic

namespace Tenure

/-- A length of time. -/
structure Duration where
  secs : Nat := 0
  nanos : Nat := 0
  deriving DecidableEq, Repr, Inhabited

namespace Duration

/-- No time. -/
def zero : Duration := {}

/-- The number of nanoseconds in a second. -/
def nanosPerSecond : Nat := 1000000000

/-- A time given by seconds and any number of nanoseconds. -/
def ofParts (secs nanos : Nat) : Duration :=
  ⟨secs + nanos / nanosPerSecond, nanos % nanosPerSecond⟩

/-- A time given in nanoseconds. -/
def ofNanos (nanos : Nat) : Duration := ofParts 0 nanos

/-- The time in seconds: seconds and the fraction of a second are rounded to binary numbers,
    and so is their sum. -/
def seconds (d : Duration) : Text.Dyadic :=
  let format := Text.BinaryFormat.double
  format.add (format.nearest d.secs 1) (format.nearest d.nanos nanosPerSecond)

/-- The written form, in a column of fourteen characters before the unit. -/
def text (d : Duration) : String := Text.alignRight 14 (d.seconds.fixed 9) ++ "s"

end Duration

end Tenure
