/-
  Tenure — faults.

  A fault is a broken promise of the caller: an address that names no cell, a
  number out of its range, a sum that does not fit.  It is kept apart from the
  errors that a heap answers with (`HeapError`), because an operation that meets
  a fault has no answer at all.  What the operation had done by then stays done,
  so an operation that can fault is an action on its state (`Action`).

  * `Fault`: the causes.
  * `Action`: operations that may fault.
  * `Word.add`, `Word.sub`: sizes, counters and serial numbers are natural numbers that
    stay below `Word.limit`.  Sums and differences of them are checked: a result that does
    not fit is a fault, never a number taken modulo the limit.
-/
import Tenure.Address.Basic

namespace Tenure

/-- The causes for which an operation stops without an answer. -/
inductive Fault
  /-- A cell was asked for at an address that names none. -/
  | dangling (p : Address)
  /-- A second move of the same cell was recorded. -/
  | movedTwice (p : Address)
  /-- An index beyond 32 bits was to become an address. -/
  | indexTooLarge
  /-- A young address was to name a buffer other than the two. -/
  | semispaceUnknown
  /-- The buffer that stands by holds cells when a collection starts. -/
  | targetInUse
  /-- A sum passed the largest number of its width. -/
  | additionOverflow
  /-- A difference would be negative. -/
  | subtractionOverflow
  /-- A walk along a list would never come to its end. -/
  | endless
  deriving DecidableEq, Repr

namespace Fault

/-- The wording of a fault. -/
def message : Fault → String
  | .dangling p => s!"dangling cell pointer {p.text}"
  | .movedTwice p => s!"cell {p.text} moved twice"
  | .indexTooLarge => "assertion failed: index <= u32::MAX as usize"
  | .semispaceUnknown => "assertion failed: semispace < 2"
  | .targetInUse => "assertion failed: heap.young[target].is_empty()"
  | .additionOverflow => "attempt to add with overflow"
  | .subtractionOverflow => "attempt to subtract with overflow"
  | .endless => "walk without an end"

end Fault

/-- An operation on a state that may stop at a fault.  The state reached by then is kept. -/
abbrev Action (σ α : Type) := EStateM Fault σ α

/-- An answer that may be a fault and touches no state, as an action. -/
instance {σ : Type} : MonadLift (Except Fault) (Action σ) where
  monadLift
    | .ok a => pure a
    | .error fault => throw fault

/-! ## Machine words -/

namespace Word

/-- The number of distinct values of a machine word, two to the power of 64. -/
def limit : Nat := 18446744073709551616

/-- A sum of two words. -/
def add (a b : Nat) : Except Fault Nat :=
  if a + b < limit then .ok (a + b) else .error .additionOverflow

/-- A difference of two words. -/
def sub (a b : Nat) : Except Fault Nat :=
  if b ≤ a then .ok (a - b) else .error .subtractionOverflow

theorem add_eq_ok_iff {a b c : Nat} : add a b = .ok c ↔ a + b = c ∧ c < limit := by
  unfold add
  split <;> simp <;> omega

theorem sub_eq_ok_iff {a b c : Nat} : sub a b = .ok c ↔ b + c = a := by
  unfold sub
  split <;> simp <;> omega

end Word

end Tenure
