/-
  Tenure — external values.

  Cells may hold references to values that live outside the heap and are managed
  by counting references.  The heap moves such references and never looks inside.

  * `ExternalValue`: what a value is, which decides what happens at its end.
  * `Values`: every value made so far, with the number of references to it.
  * `Values.release`: gives a reference back and answers with the value if that
    was the last one.
-/
import Tenure.Roots

namespace Tenure

/-- A handle for an external value: its identity. -/
structure ValueId where
  serial : Nat
  deriving DecidableEq, Repr, Inhabited

/-- A value outside the heap. -/
inductive ExternalValue
  /-- A value of a named kind that needs nothing at its end. -/
  | plain (name : String)
  /-- A value of a named kind that owns a root, such as a procedure its environment. -/
  | owner (name : String) (root : RootLease)
  /-- A stand-in for an open file. -/
  | file (path : String)
  deriving DecidableEq, Repr, Inhabited

/-- The name of the kind of value. -/
def ExternalValue.name : ExternalValue → String
  | .plain name => name
  | .owner name _ => name
  | .file _ => "file"

/-- A value with the number of references to it. -/
structure Counted where
  value : ExternalValue
  count : Nat
  deriving DecidableEq, Repr, Inhabited

/-- The external values, each at its serial number.  A value whose count has come down to
    zero is gone; its number is not used again. -/
structure Values where
  entries : Array Counted := #[]
  deriving DecidableEq, Repr, Inhabited

namespace Values

/-- No values. -/
def empty : Values := {}

/-- The number of references to a value. -/
def count (values : Values) (id : ValueId) : Nat :=
  match values.entries[id.serial]? with
  | some entry => entry.count
  | none => 0

/-- The name of the kind of a value. -/
def name (values : Values) (id : ValueId) : String :=
  match values.entries[id.serial]? with
  | some entry => entry.value.name
  | none => ""

/-- The written form of a reference: the kind of the value and the number of references. -/
def describe (values : Values) (id : ValueId) : String :=
  s!"<{values.name id} x{values.count id}>"

/-- A new value, with one reference. -/
def add (values : Values) (value : ExternalValue) : Values × ValueId :=
  (⟨values.entries.push ⟨value, 1⟩⟩, ⟨values.entries.size⟩)

/-- One more reference to a value. -/
def retain (values : Values) (id : ValueId) : Values :=
  ⟨values.entries.modify id.serial fun entry => { entry with count := entry.count + 1 }⟩

/-- One reference less, with the value if it was the last. -/
def release (values : Values) (id : ValueId) : Values × Option ExternalValue :=
  match values.entries[id.serial]? with
  | some entry =>
    let gone := if entry.count = 1 then some entry.value else none
    (⟨values.entries.modify id.serial fun entry => { entry with count := entry.count - 1 }⟩, gone)
  | none => (values, none)

end Values

end Tenure
