/-
  Tenure — the flags that the collector keeps on a cell.

  * `Flags`: the mark, the two age flags and the flag of promotion.
  * `Flags.age`, `Flags.aged`: the ladder nothing, first, second; a cell that was
    collected more often stays on the second rung.
  * `Flags.bits`, `Flags.ofBits`: the flags as a word, lowest bit first.
  * `Flags.text`: the names of the flags that are set, in the order of the bits.
-/

namespace Tenure

/-- The collector's flags on a cell. -/
structure Flags where
  /-- Reached by the mark phase. -/
  marked : Bool := false
  /-- Survived one young collection. -/
  survivedOnce : Bool := false
  /-- Survived two young collections or more. -/
  survivedTwice : Bool := false
  /-- Moved to the old generation. -/
  promoted : Bool := false
  deriving DecidableEq, Repr, Inhabited

namespace Flags

/-- No flag set. -/
def empty : Flags := {}

/-- Young collections survived so far, counted up to two. -/
def age (f : Flags) : Nat :=
  if f.survivedTwice then 2 else if f.survivedOnce then 1 else 0

/-- The flags after one more young collection. -/
def aged (f : Flags) : Flags :=
  if f.age = 0 then { f with survivedOnce := true }
  else { f with survivedOnce := false, survivedTwice := true }

/-- The union of two sets of flags. -/
def union (f g : Flags) : Flags where
  marked := f.marked || g.marked
  survivedOnce := f.survivedOnce || g.survivedOnce
  survivedTwice := f.survivedTwice || g.survivedTwice
  promoted := f.promoted || g.promoted

/-- The flags of `f` that `g` does not have. -/
def diff (f g : Flags) : Flags where
  marked := f.marked && !g.marked
  survivedOnce := f.survivedOnce && !g.survivedOnce
  survivedTwice := f.survivedTwice && !g.survivedTwice
  promoted := f.promoted && !g.promoted

/-- The flags as a word. -/
def bits (f : Flags) : Nat :=
  f.marked.toNat + 2 * f.survivedOnce.toNat + 4 * f.survivedTwice.toNat + 8 * f.promoted.toNat

/-- The flags in a word; bits without a meaning are left out. -/
def ofBits (n : Nat) : Flags where
  marked := n.testBit 0
  survivedOnce := n.testBit 1
  survivedTwice := n.testBit 2
  promoted := n.testBit 3

/-- The flags in a word all of whose bits have a meaning. -/
def ofBits? (n : Nat) : Option Flags := if n < 16 then some (ofBits n) else none

/-- The names of the flags that are set. -/
def names (f : Flags) : List String :=
  [("MARKED", f.marked), ("SURVIVOR1", f.survivedOnce), ("SURVIVOR2", f.survivedTwice),
    ("PROMOTED", f.promoted)].filterMap fun (name, set) => if set then some name else none

/-- The written form: the names with bars between them. -/
def text (f : Flags) : String :=
  if f.names.isEmpty then "(empty)" else " | ".intercalate f.names

@[simp] theorem ofBits_bits (f : Flags) : ofBits f.bits = f := by
  rcases f with ⟨_ | _, _ | _, _ | _, _ | _⟩ <;> decide

end Flags

end Tenure
