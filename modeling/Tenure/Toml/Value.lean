/-
  Tenure — the values of a TOML document.

  * `Value`: a value whose tables have each key once.
  * `Value.ofWritten?`: a value as written, if its keys are distinct and its dates
    are dates.
  * `Value.ofText?`: the table that a document stands for.
  * `Parse`: any way to take texts for documents, such as `Value.ofText?`.

  A table may be given in several sections.  `Assembly.table` and
  `Assembly.elements` collect the sections whose headers begin alike, in the order
  in which the document has them.
-/
import Tenure.Toml.Grammar

namespace Tenure.Toml

/-- A value. -/
inductive Value
  | integer (n : Int)
  | float
  | boolean (b : Bool)
  | string (content : String)
  | dateTime (written : String)
  | array (items : List Value)
  | table (entries : List (String × Value))
  deriving Inhabited

namespace Value

/-- The key by which a table stands for a date: the date is the text under it, if the table
    begins with it. -/
def dateKey : String := "$__toml_private_datetime"

/-- The date that a written value stands for under `dateKey`. -/
def dateUnderKey? : Written → Option Value
  | .string content => if isDateTime content.toList then some (.dateTime content) else none
  | _ => none

/-- The number, if the value is a whole number. -/
def integer? : Value → Option Int
  | .integer n => some n
  | _ => none

mutual

/-- A value as it was written, if its dates are dates and its keys distinct. -/
def ofWritten? : Written → Option Value
  | .integer n => some (.integer n)
  | .float => some .float
  | .boolean b => some (.boolean b)
  | .string content => some (.string content)
  | .dateTime written =>
    if isDateTime written then some (.dateTime (String.ofList written)) else none
  | .array items => (ofItems? items).map .array
  | .table _ [] => some (.table [])
  | .table _ ((key, first) :: rest) =>
    if key = dateKey then dateUnderKey? first
    else do
      let first ← ofWritten? first
      let rest ← ofEntries? rest [key]
      return .table ((key, first) :: rest)

/-- The items of an array. -/
def ofItems? : List Written → Option (List Value)
  | [] => some []
  | item :: rest => do return (← ofWritten? item) :: (← ofItems? rest)

/-- The entries of a table whose keys are not among those seen before. -/
def ofEntries? : List (String × Written) → List String → Option (List (String × Value))
  | [], _ => some []
  | (key, written) :: rest, seen =>
    if seen.contains key then none
    else do return (key, ← ofWritten? written) :: (← ofEntries? rest (key :: seen))

end

end Value

/-- The sections of a document, from which tables take their values.  A section whose values
    were taken has none left. -/
structure Assembly where
  sections : Array Section
  deriving Inhabited

/-- A table that is being collected from sections. -/
structure Cursor where
  /-- How many parts of the headers name the table. -/
  depth : Nat
  /-- The section that the table was found by. -/
  parent : Nat
  /-- The first section that was not looked at. -/
  position : Nat
  /-- The section before which the table ends. -/
  stop : Nat
  /-- Values taken from a section and not yet read. -/
  pending : Entries := []

namespace Assembly

/-- The section at an index. -/
def sectionAt (a : Assembly) (index : Nat) : Section := a.sections[index]?.getD {}

/-- The header of the section at an index. -/
def headerAt (a : Assembly) (index : Nat) : List String := (a.sectionAt index).header

/-- The first section with values left, from one index to before another, whose header begins
    with some parts. -/
def find? (a : Assembly) (path : List String) (start stop : Nat) : Option Nat :=
  (List.range' start (stop - start)).find? fun i =>
    path.isPrefixOf (a.headerAt i) && (a.sectionAt i).entries.isSome

/-- The next section that is an element of the same array. -/
def nextElement (a : Assembly) (index stop : Nat) : Nat :=
  let found? := (List.range' (index + 1) (stop - (index + 1))).find? fun i =>
    a.headerAt i = a.headerAt index && (a.sectionAt i).isElement
  found?.getD stop

/-- Takes the values of a section. -/
def take? (a : Assembly) (index : Nat) : Option (Entries × Assembly) :=
  (a.sectionAt index).entries.map fun entries =>
    (entries, ⟨a.sections.modify index fun s => { s with entries := none }⟩)

/-- The next key of a table: with its value if it stands in a section, or without if it is the
    next part of a header.  A header may not come twice, and an element of an array may not come
    where a table was meant. -/
def nextKey? : Nat → Assembly → Cursor →
    Option (Assembly × Cursor × Option (String × Option Written))
  | 0, _, _ => none
  | fuel + 1, a, c =>
    match c.pending with
    | (key, written) :: pending => some (a, { c with pending }, some (key, some written))
    | [] =>
      match a.find? ((a.headerAt c.parent).take c.depth) c.position c.stop with
      | none => some (a, c, none)
      | some index =>
        let header := a.headerAt index
        let parentHeader := a.headerAt c.parent
        if c.parent ≠ index ∧ header = parentHeader then none
        else
          -- a shorter header that comes later stands for the table from here on
          let parent := if header.length < parentHeader.length then index else c.parent
          match header[c.depth]? with
          | some key => some (a, { c with parent, position := index }, some (key, none))
          | none =>
            if (a.sectionAt index).isElement then none
            else do
              let (pending, a) ← a.take? index
              nextKey? fuel a { c with parent, position := index, pending }

/-- Whether a table has nothing more to come. -/
def isAtEnd (c : Cursor) : Bool := c.parent = c.stop || c.position = c.stop

mutual

/-- The value that a table stands for. -/
def table : Nat → Assembly → Cursor → Option (Value × Assembly)
  | 0, _, _ => none
  | fuel + 1, a, c =>
    if isAtEnd c then some (.table [], a)
    else do
      let (after, _, first) ← nextKey? (a.sections.size + 2) a c
      match first with
      | none => return (.table [], after)
      | some (key, written) =>
        if key = Value.dateKey then return (← written.bind Value.dateUnderKey?, after)
        else do
          let (entries, a) ← entries fuel a c []
          return (.table entries, a)

/-- The entries of a table whose keys are not among those seen before. -/
def entries : Nat → Assembly → Cursor → List String → Option (List (String × Value) × Assembly)
  | 0, _, _, _ => none
  | fuel + 1, a, c, seen =>
    if isAtEnd c then some ([], a)
    else do
      let (a, c, found) ← nextKey? (a.sections.size + 2) a c
      match found with
      | none => return ([], a)
      | some (key, written) =>
        guard (!seen.contains key)
        let (value, a, c) ← match written with
          | some written => do pure (← Value.ofWritten? written, a, c)
          | none => do
            let (value, a) ← inner fuel a c
            pure (value, a, { c with position := c.position + 1 })
        let (rest, a) ← entries fuel a c (key :: seen)
        return ((key, value) :: rest, a)

/-- The value under the next part of a header: a table, or an array if the header is that of an
    element and has no further part. -/
def inner : Nat → Assembly → Cursor → Option (Value × Assembly)
  | 0, _, _ => none
  | fuel + 1, a, c =>
    let s := a.sectionAt c.position
    if s.isElement && c.depth + 1 = s.header.length then do
      let (items, a) ← elements fuel a (c.depth + 1) c.position c.stop
      return (.array items, a)
    else table fuel a
      { depth := c.depth + 1, parent := c.position, position := 0, stop := c.stop }

/-- The elements of an array from a section on. -/
def elements : Nat → Assembly → Nat → Nat → Nat → Option (List Value × Assembly)
  | 0, _, _, _, _ => none
  | fuel + 1, a, depth, index, stop =>
    if index = stop then some ([], a)
    else do
      let next := a.nextElement index stop
      let (pending, a) ← a.take? index
      let (first, a) ← table fuel a
        { depth, parent := index, position := 0, stop := next, pending }
      let (rest, a) ← elements fuel a depth next stop
      return (first :: rest, a)

end

end Assembly

/-- The value that a document stands for: a table, but for a document that begins with
    `Value.dateKey`. -/
def Value.ofText? (text : String) : Option Value := do
  let sections ← sections? text
  let a : Assembly := ⟨sections.toArray⟩
  let steps := (text.length + 2) * (text.length + 2)
  let (value, _) ← a.table steps { depth := 0, parent := 0, position := 0, stop := sections.length }
  return value

/-- How texts are taken for documents: the value that a text stands for, if it is a document. -/
abbrev Parse := String → Option Value

/-- No table that is found has a key twice. -/
def Parse.DistinctKeys (parse : Parse) : Prop :=
  ∀ text entries, parse text = some (.table entries) → (entries.map Prod.fst).Nodup

end Tenure.Toml
