/-
  Tenure — the slots of a cell.

  * `Slot`: a payload together with its kind, which is the only way to read it.
  * `SlotKind`: the kinds, with the names by which they are shown.
  * `Slot.sameContent`: equality of payloads.  Numbers are compared as numbers,
    external values by identity and texts by their characters.
  * `Slot.overwrite?`, `Slot.store`: writing a slot.  A payload of the kind that is
    there already is overwritten in its place, any other replaces the slot.
  * `Slot.refill`: a text that is written where a text is already, into its buffer.
-/
import Tenure.Symbols
import Tenure.Text.Decimal
import Tenure.Text.Basic
import Tenure.Values

namespace Tenure

/-- One half of a cell.  Floating-point payloads are kept as their words. -/
inductive Slot
  | empty
  | int (value : Int32)
  | single (word : UInt32)
  | double (word : UInt64)
  | ref (target : Address)
  | value (id : ValueId)
  | string (content : String)
  | symbol (id : SymbolId)
  deriving DecidableEq, Repr, Inhabited

/-- The kind of a payload. -/
inductive SlotKind
  | empty
  | int
  | single
  | double
  | ref
  | value
  | string
  | symbol
  deriving DecidableEq, Repr

/-- The name by which a kind is shown. -/
def SlotKind.name : SlotKind → String
  | .empty => "Nil"
  | .int => "Int"
  | .single => "Float"
  | .double => "Double"
  | .ref => "CellRef"
  | .value => "ValueRef"
  | .string => "String"
  | .symbol => "Symbol"

namespace Slot

/-- The kind of the payload. -/
def kind : Slot → SlotKind
  | .empty => .empty
  | .int _ => .int
  | .single _ => .single
  | .double _ => .double
  | .ref _ => .ref
  | .value _ => .value
  | .string _ => .string
  | .symbol _ => .symbol

/-- Whether the slot holds nothing. -/
def isEmpty (s : Slot) : Bool := s.kind == .empty

/-- The address in the slot. -/
def ref? : Slot → Option Address
  | .ref p => some p
  | _ => none

/-- The external value in the slot. -/
def value? : Slot → Option ValueId
  | .value id => some id
  | _ => none

/-- The number in the slot. -/
def int? : Slot → Option Int32
  | .int n => some n
  | _ => none

/-- Equality of payloads. -/
def sameContent : Slot → Slot → Bool
  | .empty, .empty => true
  | .int a, .int b => a == b
  | .single a, .single b => Text.BinaryFormat.single.sameNumber a.toNat b.toNat
  | .double a, .double b => Text.BinaryFormat.double.sameNumber a.toNat b.toNat
  | .ref p, .ref q => p == q
  | .value a, .value b => a == b
  | .string a, .string b => a == b
  | .symbol a, .symbol b => a == b
  | _, _ => false

/-- Changes the address in a slot that holds one. -/
def mapRef (f : Address → Address) : Slot → Slot
  | .ref p => .ref (f p)
  | s => s

/-- Replaces the payload by another of the same kind; a payload of another kind is refused. -/
def overwrite? (current payload : Slot) : Option Slot :=
  if current.kind = payload.kind ∧ current.kind ≠ .empty then some payload else none

/-- Writes a payload: in place if its kind is there already, else instead of what is there. -/
def store (current payload : Slot) : Slot := (current.overwrite? payload).getD payload

/-- What a buffer of text holds when it is cut to nothing and another text is put behind. -/
def refill (buffer content : String) : String :=
  String.ofList (buffer.toList.take 0 ++ content.toList)

/-- The text in the slot with its letters `a` to `z` in upper case. -/
def upperString? : Slot → Option Slot
  | .string s => some (.string (s.map Char.toUpper))
  | _ => none

/-- The written form of a slot, given the written form of external values. -/
def text (describe : ValueId → String) : Slot → String
  | .empty => "Nil"
  | .int n => s!"Int({n.toInt})"
  | .single word => "Float(" ++ Text.BinaryFormat.single.text word.toNat ++ ")"
  | .double word => "Double(" ++ Text.BinaryFormat.double.text word.toNat ++ ")"
  | .ref p => "CellRef(" ++ p.text ++ ")"
  | .value id => "ValueRef(" ++ describe id ++ ")"
  | .string s => "String(" ++ Text.quoted s ++ ")"
  | .symbol id => s!"Symbol(SymbolId({id.index}))"

theorem ref?_eq_some_iff {s : Slot} {p : Address} : s.ref? = some p ↔ s = .ref p := by
  cases s <;> simp [ref?]

theorem int?_eq_some_iff {s : Slot} {n : Int32} : s.int? = some n ↔ s = .int n := by
  cases s <;> simp [int?]

@[simp] theorem store_eq (current payload : Slot) : current.store payload = payload := by
  unfold store overwrite?
  split <;> rfl

@[simp] theorem refill_eq (buffer content : String) : refill buffer content = content := by
  simp [refill]

end Slot

end Tenure
