/-
  Tenure — addresses from numbers and from text.

  * `Address.make`: every address that is computed goes through it.  It refuses an index
    beyond 32 bits.
  * `Address.offset`, `Address.block`: counting on within a block of cells, as a client does
    after it was given the first of several.
  * `Address.ofText?`: reads what `Address.text` writes, the letter and number of a buffer, a
    colon and an index.  An index that no address has is a fault and not a text that cannot
    be read.
-/
import Tenure.Fault
import Tenure.Text.Basic

namespace Tenure

namespace Address

/-- The cell with the given index in a buffer. -/
def make (space : Space) (index : Nat) : Except Fault Address :=
  if index < limit then .ok ⟨space, index.toUInt32⟩ else .error .indexTooLarge

/-- An address in the old generation. -/
def old (index : Nat) : Except Fault Address := make .old index

/-- An address in one of the two young buffers. -/
def young (semispace : UInt8) (index : Nat) : Except Fault Address :=
  if semispace < 2 then make (.young semispace) index else .error .semispaceUnknown

/-- The cell `n` places further on in the same buffer. -/
def offset (p : Address) (n : Nat) : Except Fault Address := do
  make p.space (← Word.add p.position n)

/-- The addresses of a block of cells, from its first. -/
def block (p : Address) (count : Nat) : Except Fault (List Address) :=
  (List.range count).mapM p.offset

theorem make_eq_ok_iff {s : Space} {i : Nat} {p : Address} :
    make s i = .ok p ↔ p.space = s ∧ p.position = i := by
  unfold make
  split
  · rename_i h
    constructor
    · intro e
      cases e
      exact ⟨rfl, UInt32.toNat_ofNat_of_lt' h⟩
    · rintro ⟨rfl, rfl⟩
      congr 1
      exact ext_position rfl (by simp [position])
  · rename_i h
    constructor
    · intro e
      cases e
    · rintro ⟨_, rfl⟩
      exact absurd p.position_lt h

end Address

/-! ## Written addresses -/

/-- The buffer that is written before the colon. -/
def Space.ofText? (cs : List Char) : Option Space :=
  match cs with
  | ['o'] => some .old
  | 'y' :: digits =>
    ((Text.natural? digits).filter (· < 256)).map fun semispace => .young semispace.toUInt8
  | _ => none

namespace Address

/-- The address that a text stands for, with a fault where its index is out of range. -/
def ofText? (text : String) : Option (Except Fault Address) := do
  let cs := text.toList
  let space ← Space.ofText? (cs.takeWhile (· ≠ ':'))
  let index ← Text.natural? ((cs.dropWhile (· ≠ ':')).drop 1)
  if index < Word.limit then some (make space index) else none

end Address

end Tenure
