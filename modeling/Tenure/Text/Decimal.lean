/-
  Tenure — decimals of binary numbers.

  * `shortest`: the decimal with the fewest digits that lies in the interval of
    reals rounding to `m · 2^q`; of those the nearest to it, and of two equally
    near the larger.
  * `fixed`: the value rounded to a number of decimal places, a half going to the
    even neighbour.
  * `BinaryFormat.text`: the written form of a word.  Values from `1e-4` up to but
    not including `1e16` are positional and keep a digit on either side of the
    point; the others have an exponent.

  All of it is exact arithmetic on whole numbers.
-/
import Tenure.Text.Binary

namespace Tenure.Text

/-- The decimal `digits · 10^exponent`. -/
structure Decimal where
  digits : Nat
  exponent : Int
  deriving DecidableEq, Repr

namespace Decimal

/-- The same value without zeros at the end of its digits. -/
def trim (d : Decimal) : Decimal :=
  if h : d.digits ≠ 0 ∧ d.digits % 10 = 0 then trim ⟨d.digits / 10, d.exponent + 1⟩ else d
termination_by d.digits
decreasing_by exact Nat.div_lt_self (Nat.pos_of_ne_zero h.1) (by decide)

end Decimal

/-- The interval of reals that round to `m · 2^q`, in quarters of `2^q`. -/
structure Rounding where
  /-- The value itself. -/
  value : Nat
  /-- The lower end. -/
  low : Nat
  /-- The upper end. -/
  high : Nat
  /-- The exponent of a quarter. -/
  scale : Int
  /-- Whether the ends belong to the interval. -/
  closed : Bool

namespace Rounding

/-- The interval around a finite value: half the way to its neighbours, which belong to it
    if `m` is even. -/
def around (m : Nat) (q : Int) (lowest : Bool) : Rounding where
  value := 4 * m
  low := if lowest then 4 * m - 1 else 4 * m - 2
  high := 4 * m + 2
  scale := q - 2
  closed := m % 2 = 0

/-- A power of two and a power of ten that bring quarters and multiples of `10^grid` to one
    unit: `x` quarters are `x * quarters` units and `c · 10^grid` is `c * points` units. -/
def quarters (r : Rounding) (grid : Int) : Nat :=
  Nat.pow 2 r.scale.toNat * Nat.pow 10 (-grid).toNat

/-- The size of `10^grid` in the units of `Rounding.quarters`. -/
def points (r : Rounding) (grid : Int) : Nat :=
  Nat.pow 10 grid.toNat * Nat.pow 2 (-r.scale).toNat

/-- Whether `c · 10^grid` rounds to the value. -/
def holds (r : Rounding) (grid : Int) (c : Nat) : Bool :=
  let x := c * r.points grid
  let low := r.low * r.quarters grid
  let high := r.high * r.quarters grid
  if r.closed then low ≤ x && x ≤ high else low < x && x < high

/-- The best multiple of `10^grid` in the interval: one of the two neighbours of the value. -/
def nearest? (r : Rounding) (grid : Int) : Option Nat :=
  let v := r.value * r.quarters grid
  let unit := r.points grid
  let below := v / unit
  let rest := v % unit
  let above := if rest = 0 then below else below + 1
  match r.holds grid below, r.holds grid above with
  | true, true => some (if unit ≤ 2 * rest then above else below)
  | true, false => some below
  | false, true => some above
  | false, false => none

/-- The exponent of the leading digit of the value. -/
def magnitude (r : Rounding) : Int :=
  let precision := 400
  let scaled := r.value * r.quarters (-precision) / r.points (-precision)
  (toString scaled).length - 1 - precision

/-- The first grid from `grid` downwards that meets the interval, within `fuel` grids. -/
def search (r : Rounding) (grid : Int) : Nat → Decimal
  | 0 => ⟨r.value * r.quarters grid / r.points grid, grid⟩
  | fuel + 1 =>
    match r.nearest? grid with
    | some c => ⟨c, grid⟩
    | none => search r (grid - 1) fuel

end Rounding

/-- The shortest decimal that reads back as `m · 2^q`.  Seventeen digits always suffice in
    the formats of `BinaryFormat`. -/
def shortest (m : Nat) (q : Int) (lowest : Bool) : Decimal :=
  let r := Rounding.around m q lowest
  if m = 0 then ⟨0, 0⟩ else (r.search r.magnitude 17).trim

/-- The layout of numbers: the exponents of the leading digit that are written positionally. -/
structure NumberLayout where
  leastExponent : Int
  leastScientific : Int

/-- Numbers are positional from `1e-4` to below `1e16`. -/
def NumberLayout.standard : NumberLayout := ⟨-4, 16⟩

/-- A row of zeros. -/
def zeros (n : Nat) : String := String.ofList (List.replicate n '0')

/-- A decimal in a layout. -/
def NumberLayout.write (layout : NumberLayout) (d : Decimal) : String :=
  let digits := (toString d.digits).toList
  let count := digits.length
  let point : Int := d.exponent + count
  let leading := point - 1
  if d.digits ≠ 0 && (leading < layout.leastExponent || layout.leastScientific ≤ leading) then
    let fraction := digits.drop 1
    let tail := if fraction.isEmpty then "" else "." ++ String.ofList fraction
    String.ofList (digits.take 1) ++ tail ++ "e" ++ toString leading
  else if point ≤ 0 then
    "0." ++ zeros (-point).toNat ++ String.ofList digits
  else if (count : Int) ≤ point then
    String.ofList digits ++ zeros (point.toNat - count) ++ ".0"
  else
    String.ofList (digits.take point.toNat) ++ "." ++ String.ofList (digits.drop point.toNat)

/-- The sign of a number: zero has one too. -/
def signText (negative : Bool) : String := if negative then "-" else ""

/-- The written form of a floating-point word. -/
def BinaryFormat.text (f : BinaryFormat) (word : Nat) : String :=
  match f.read word with
  | .notANumber => "NaN"
  | .infinite negative => signText negative ++ "inf"
  | .finite negative m q lowest =>
    signText negative ++ NumberLayout.standard.write (shortest m q lowest)

/-- A quotient rounded to the nearest whole number, a half to the even one. -/
def roundDiv (num den : Nat) : Nat :=
  let quotient := num / den
  let rest := 2 * (num % den)
  if den < rest || rest = den && quotient % 2 = 1 then quotient + 1 else quotient

/-- The value `m · 2^q` with a number of decimal places. -/
def fixed (places m : Nat) (q : Int) : String :=
  let scaled := roundDiv (m * Nat.pow 10 places * Nat.pow 2 q.toNat) (Nat.pow 2 (-q).toNat)
  let fraction := toString (scaled % Nat.pow 10 places)
  toString (scaled / Nat.pow 10 places) ++ "." ++ zeros (places - fraction.length) ++ fraction

end Tenure.Text
