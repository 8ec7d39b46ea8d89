/-
  Tenure — binary floating-point words.

  A word of a binary format holds a sign, an exponent and a fraction.  Numbers are
  kept as their words, so that equality of cells, their printing and their laws
  are about whole numbers.

  * `BinaryFormat`: the widths of the fields, with `BinaryFormat.single` and
    `BinaryFormat.double`.
  * `BinaryFormat.read`: what a word stands for: no number, an infinity, or the
    exact value `±m · 2^q`.
  * `BinaryFormat.sameNumber`: numeric equality, which differs from equality of the
    words in two points: no number is not equal to itself, and the two zeros are
    equal.
-/

namespace Tenure.Text

/-- The widths of the fields of a floating-point word. -/
structure BinaryFormat where
  fractionBits : Nat
  exponentBits : Nat
  deriving DecidableEq, Repr

/-- What a floating-point word stands for. -/
inductive BinaryValue
  | notANumber
  | infinite (negative : Bool)
  /-- The value `m · 2^q`, with its sign.  `lowest` says that the number below is only half
      as far away as the number above. -/
  | finite (negative : Bool) (m : Nat) (q : Int) (lowest : Bool)
  deriving DecidableEq, Repr

namespace BinaryFormat

/-- Words of 32 bits. -/
def single : BinaryFormat := ⟨23, 8⟩

/-- Words of 64 bits. -/
def double : BinaryFormat := ⟨52, 11⟩

/-- The fraction field of a word. -/
def fraction (f : BinaryFormat) (word : Nat) : Nat := word % Nat.pow 2 f.fractionBits

/-- The exponent field of a word. -/
def exponent (f : BinaryFormat) (word : Nat) : Nat :=
  word / Nat.pow 2 f.fractionBits % Nat.pow 2 f.exponentBits

/-- Whether the sign bit is set. -/
def negative (f : BinaryFormat) (word : Nat) : Bool :=
  word.testBit (f.fractionBits + f.exponentBits)

/-- The value of a word. -/
def read (f : BinaryFormat) (word : Nat) : BinaryValue :=
  let fraction := f.fraction word
  let exponent := f.exponent word
  let scale : Int := (2 : Int) - Nat.pow 2 (f.exponentBits - 1) - f.fractionBits
  if exponent = Nat.pow 2 f.exponentBits - 1 then
    if fraction = 0 then .infinite (f.negative word) else .notANumber
  else if exponent = 0 then
    .finite (f.negative word) fraction scale false
  else
    .finite (f.negative word) (Nat.pow 2 f.fractionBits + fraction) (scale + (exponent - 1))
      (fraction = 0 && exponent > 1)

/-- Whether a word is no number. -/
def isNaN (f : BinaryFormat) (word : Nat) : Bool := f.read word = .notANumber

/-- Whether a word is one of the two zeros. -/
def isZero (f : BinaryFormat) (word : Nat) : Bool := f.fraction word = 0 && f.exponent word = 0

/-- Numeric equality of two words. -/
def sameNumber (f : BinaryFormat) (a b : Nat) : Bool :=
  !f.isNaN a && !f.isNaN b && (a == b || f.isZero a && f.isZero b)

end BinaryFormat

end Tenure.Text
