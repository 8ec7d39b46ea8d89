/-
  Tenure — rounding to binary numbers.

  * `Dyadic`: an exact value `m · 2^q`, with exact sums.
  * `BinaryFormat.nearest`: the number of a binary format nearest to a quotient, a
    half going to the even fraction.

  A time is shown as the sum of two such numbers, and the digits that are shown
  depend on both roundings.
-/
import Tenure.Text.Decimal

namespace Tenure.Text

/-- The value `m · 2^q`. -/
structure Dyadic where
  m : Nat
  q : Int
  deriving DecidableEq, Repr

namespace Dyadic

/-- The exact sum. -/
def add (a b : Dyadic) : Dyadic :=
  let q := min a.q b.q
  ⟨a.m * Nat.pow 2 (a.q - q).toNat + b.m * Nat.pow 2 (b.q - q).toNat, q⟩

/-- The value as a quotient of whole numbers. -/
def quotient (a : Dyadic) : Nat × Nat := (a.m * Nat.pow 2 a.q.toNat, Nat.pow 2 (-a.q).toNat)

/-- The value with a number of decimal places. -/
def fixed (places : Nat) (a : Dyadic) : String := Text.fixed places a.m a.q

end Dyadic

/-- The exponent of the leading bit of a positive quotient. -/
def leadingBit (num den : Nat) : Int :=
  let guess : Int := (num.log2 : Int) - den.log2
  if den * Nat.pow 2 guess.toNat ≤ num * Nat.pow 2 (-guess).toNat then guess else guess - 1

/-- The number of a binary format nearest to a quotient, for quotients that are not beyond the
    range of the format. -/
def BinaryFormat.nearest (f : BinaryFormat) (num den : Nat) : Dyadic :=
  if num = 0 then ⟨0, 0⟩
  else
    let least : Int := (2 : Int) - Nat.pow 2 (f.exponentBits - 1) - f.fractionBits
    let q := max least (leadingBit num den - f.fractionBits)
    ⟨roundDiv (num * Nat.pow 2 (-q).toNat) (den * Nat.pow 2 q.toNat), q⟩

/-- The sum of two numbers of a binary format, rounded to the format. -/
def BinaryFormat.add (f : BinaryFormat) (a b : Dyadic) : Dyadic :=
  let (num, den) := (a.add b).quotient
  f.nearest num den

end Tenure.Text
