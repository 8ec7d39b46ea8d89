/-
  Tenure — interned symbols.

  * `SymbolId`: the number of a name in a table.  There are as many handles as words of
    32 bits; nothing keeps a table from growing past them.
  * `SymbolTable`: names without repetition, numbered in the order of their first
    interning.
-/

namespace Tenure

/-- A handle for an interned name. -/
structure SymbolId where
  index : Nat
  deriving DecidableEq, Repr, Inhabited

namespace SymbolId

/-- The number of distinct handles, two to the power of 32. -/
def limit : Nat := 4294967296

/-- The handle for a number, of which it keeps the low 32 bits. -/
def ofNumber (number : Nat) : SymbolId := ⟨number % limit⟩

/-- The written form of a handle. -/
def text (id : SymbolId) : String := s!"sym#{id.index}"

/-- The order of handles is the order of their numbers. -/
def compare (a b : SymbolId) : Ordering := Ord.compare a.index b.index

end SymbolId

/-- The interned names, each at its number. -/
structure SymbolTable where
  names : Array String := #[]
  deriving DecidableEq, Repr, Inhabited

namespace SymbolTable

/-- A table without names. -/
def empty : SymbolTable := {}

/-- The handle of a name, which is added at the end if it is new. -/
def intern (table : SymbolTable) (name : String) : SymbolTable × SymbolId :=
  match table.names.findIdx? (· == name) with
  | some index => (table, .ofNumber index)
  | none => (⟨table.names.push name⟩, .ofNumber table.names.size)

/-- The name behind a handle; a handle of another table may have none here. -/
def resolve? (table : SymbolTable) (id : SymbolId) : Option String := table.names[id.index]?

/-- How many names there are. -/
def size (table : SymbolTable) : Nat := table.names.size

end SymbolTable

end Tenure
