/-
  Tenure — the numbers and dates of TOML.

  * `digitRun`: digits with single underscores between them.
  * `integer?`: a whole number in 64 bits with sign.
  * `isFinite`: whether a decimal is in the range of floating-point numbers.
  * `isDateTime`: the forms of dates and times.
-/
import Tenure.Toml.Token

namespace Tenure.Toml

/-- The value of a digit in a base. -/
def digit? (base : Nat) (c : Char) : Option Nat := (hexDigit? c).filter (· < base)

/-- How digits may be written. -/
structure DigitRule where
  base : Nat
  signed : Bool
  leadingZeros : Bool

/-- Whole numbers in base ten. -/
def DigitRule.decimal : DigitRule := ⟨10, true, false⟩

/-- Digits after a point. -/
def DigitRule.fraction : DigitRule := ⟨10, false, true⟩

/-- Digits of an exponent. -/
def DigitRule.exponent : DigitRule := ⟨10, true, true⟩

/-- Digits in another base. -/
def DigitRule.inBase (base : Nat) : DigitRule := ⟨base, false, true⟩

/-- A run of digits: its sign, its digits and the characters after it. -/
structure DigitRun where
  negative : Bool
  digits : List Nat
  rest : List Char

/-- The value of the digits, without the sign. -/
def DigitRun.magnitude (run : DigitRun) (base : Nat) : Nat :=
  run.digits.foldl (fun n d => base * n + d) 0

/-- Whether underscores stand singly and between digits. -/
def underscoresBetween : List Char → Bool
  | [] => false
  | [c] => c ≠ '_'
  | '_' :: _ => false
  | _ :: '_' :: rest => underscoresBetween rest
  | _ :: rest => underscoresBetween rest

/-- Reads digits with underscores between them.  Without leave for leading zeros, a zero in
    front is the whole number. -/
def digitRun (rule : DigitRule) (cs : List Char) : Option DigitRun := do
  let (negative, cs) := match cs with
    | '+' :: rest => if rule.signed then (false, rest) else (false, cs)
    | '-' :: rest => if rule.signed then (true, rest) else (false, cs)
    | _ => (false, cs)
  let inRun (c : Char) : Bool := (digit? rule.base c).isSome || c = '_'
  let written := cs.takeWhile inRun
  guard (underscoresBetween written)
  guard (rule.leadingZeros || written.length = 1 || written.head? ≠ some '0')
  return ⟨negative, written.filterMap (digit? rule.base), cs.dropWhile inRun⟩

/-- The bound of whole numbers in 64 bits, two to the power of 63. -/
def integerLimit : Int := 9223372036854775808

/-- A whole number in 64 bits. -/
def integer? (rule : DigitRule) (cs : List Char) : Option Int := do
  let run ← digitRun rule cs
  guard run.rest.isEmpty
  let magnitude := run.magnitude rule.base
  let n : Int := if run.negative then -magnitude else magnitude
  guard (-integerLimit ≤ n ∧ n < integerLimit)
  return n

/-- The least magnitude that is beyond the largest floating-point number and rounds to
    infinity. -/
def infinityBound : Nat := Nat.pow 2 1024 - Nat.pow 2 970

/-- Whether `digits · 10^exponent` is in the range of floating-point numbers. -/
def isFinite (digits : List Nat) (exponent : Int) : Bool :=
  let significant := digits.dropWhile (· = 0)
  let leading : Int := significant.length + exponent
  if significant.isEmpty || leading < 300 then true
  else if 320 < leading then false
  else
    let value := significant.foldl (fun n d => 10 * n + d) 0
    value * Nat.pow 10 exponent.toNat < infinityBound * Nat.pow 10 (-exponent).toNat

/-- Takes one decimal digit off. -/
def takeDigit : List Char → Option (Nat × List Char)
  | c :: rest => (digit? 10 c).map (·, rest)
  | [] => none

/-- Takes two decimal digits off. -/
def takeTwo (cs : List Char) : Option (Nat × List Char) := do
  let (a, cs) ← takeDigit cs
  let (b, cs) ← takeDigit cs
  return (10 * a + b, cs)

/-- Takes a given character off. -/
def takeChar (c : Char) : List Char → Option (List Char)
  | d :: rest => if c = d then some rest else none
  | [] => none

/-- Takes a date off: a year of four digits, a month and a day. -/
def takeDate (cs : List Char) : Option (List Char) := do
  let (_, cs) ← takeTwo cs
  let (_, cs) ← takeTwo cs
  let cs ← takeChar '-' cs
  let (month, cs) ← takeTwo cs
  let cs ← takeChar '-' cs
  let (day, cs) ← takeTwo cs
  guard (1 ≤ month ∧ month ≤ 12 ∧ 1 ≤ day ∧ day ≤ 31)
  return cs

/-- Takes a time of day off, with a fraction of the second if there is one. -/
def takeTime (cs : List Char) : Option (List Char) := do
  let (hour, cs) ← takeTwo cs
  let cs ← takeChar ':' cs
  let (minute, cs) ← takeTwo cs
  let cs ← takeChar ':' cs
  let (second, cs) ← takeTwo cs
  let cs ← match cs with
    | '.' :: rest =>
      if (rest.head?.bind (digit? 10)).isSome then some (rest.dropWhile (·.isDigit)) else none
    | _ => some cs
  guard (hour ≤ 24 ∧ minute ≤ 59 ∧ second ≤ 59)
  return cs

/-- Takes the offset of a time zone off, if there is one. -/
def takeOffset : List Char → Option (List Char)
  | [] => some []
  | 'Z' :: rest => some rest
  | 'z' :: rest => some rest
  | sign :: cs => do
    guard (sign = '+' ∨ sign = '-')
    let (_, cs) ← takeTwo cs
    let cs ← takeChar ':' cs
    let (_, cs) ← takeTwo cs
    return cs

/-- Whether a text is a time of day, a date, or a date and a time of day with or without the
    offset of a time zone. -/
def isDateTime (cs : List Char) : Bool :=
  let rest? : Option (List Char) :=
    if cs.length < 3 then none
    else if cs[2]? = some ':' then takeTime cs
    else do
      let cs ← takeDate cs
      match cs with
      | c :: rest =>
        if c = 'T' ∨ c = 't' ∨ c = ' ' then takeOffset (← takeTime rest) else return cs
      | [] => return []
  rest? = some []

end Tenure.Toml
