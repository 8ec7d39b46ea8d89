/-
  Tenure — a small structure with every kind of payload.

  Three allocations are linked to one list of five cells,
  `(hello 1 <file> 3.2 "world")`, with a root on the first, second and fourth cell.
  The last cell of the third allocation holds a second file, and nothing refers to
  it: the first collection reclaims it and gives the file up.

  * `Sample.build`: makes the structure.  If an allocation fails the files are given
    up, and the roots made so far stay registered.
  * `Sample.verify`: checks every payload, the roots, and the references to the first
    file.
  * `Sample.release`: takes the roots away and gives up the files.
-/
import Tenure.Heap.Walk
import Tenure.Workload.Error

namespace Tenure

/-- What is needed to check the structure later. -/
structure Sample where
  /-- The root on the head of the list. -/
  head : RootId
  /-- The root on the second cell. -/
  second : RootId
  /-- The root on the fourth cell. -/
  fourth : RootId
  /-- The symbol in the first cell. -/
  hello : SymbolId
  /-- The file in the third cell. -/
  linked : ValueId
  /-- The file that only an unreachable cell holds. -/
  orphan : ValueId
  deriving DecidableEq, Repr

namespace Sample

/-- The word of the number 3.2. -/
def threePointTwo : UInt64 := 0x400999999999999a

/-- The address in a root that was registered before. -/
def rooted (id : RootId) : Attempt Address := do
  Attempt.require ((← get).heap.roots.get? id) (.rootVanished id)

/-- Writes a further reference to a value into a slot. -/
def share (p : Address) (half : Half) (id : ValueId) : Action Store Unit := do
  modify (·.retain id)
  Store.write p half (.value id)

/-- Makes and links the cells, and registers the roots. -/
def assemble (hello : SymbolId) (linked orphan : ValueId) : Attempt Sample := do
  let a ← Attempt.ofHeap (Store.allocate 1)
  let head ← Store.addRoot a
  let b ← Attempt.ofHeap (Store.allocate 2)
  let second ← Store.addRoot b
  -- the second cell has to be reachable if the next allocation collects
  Store.write b .cdr (.ref (← b.offset 1))
  let c ← Attempt.ofHeap (Store.allocate 3)
  let fourth ← Store.addRoot c
  let a ← rooted head
  let b ← rooted second
  let b₁ ← Attempt.require ((← Store.fetch b).cdr.ref?) .sampleLinkLost
  let c₁ ← c.offset 1
  let c₂ ← c.offset 2
  Store.write a .car (.symbol hello)
  Store.write a .cdr (.ref b)
  Store.write b .car (.int 1)
  share b₁ .car linked
  Store.write b₁ .cdr (.ref c)
  Store.write c .car (.double threePointTwo)
  Store.write c .cdr (.ref c₁)
  Store.write c₁ .car (.string "world")
  Store.write c₁ .cdr .empty
  share c₂ .car orphan
  Store.write c₂ .cdr .empty
  return { head, second, fourth, hello, linked, orphan }

/-- Opens a file. -/
def openFile (path : String) : Action Store ValueId := fun s =>
  let (s, id) := (s.log (.fileOpened path)).newValue (.file path)
  .ok id s

/-- Makes the structure. -/
def build (symbols : SymbolTable) : Action Store (SymbolTable × Except RunError Sample) := do
  let (symbols, hello) := symbols.intern "hello"
  let linked ← openFile "linked.dat"
  let orphan ← openFile "orphan.dat"
  match ← (assemble hello linked orphan).run with
  | .ok sample => return (symbols, .ok sample)
  | .error error =>
    modify fun s => (s.release orphan).release linked
    return (symbols, .error error)

/-- The address of the head of the list. -/
def head? (d : Sample) (h : Heap) : Option Address := h.roots.get? d.head

/-- The payloads of the list, with their kinds. -/
def expectedKinds : List SlotKind := [.symbol, .int, .value, .double, .string]

/-- Whether the cars of five cells hold what they held when the structure was made. -/
def payloadsIntact (d : Sample) (cars : List Slot) : Bool :=
  let expected : List Slot :=
    [.symbol d.hello, .int 1, .value d.linked, .double threePointTwo, .string "world"]
  cars.length == expected.length && (cars.zip expected).all fun (a, b) => a.sameContent b

/-- Checks that the structure is as it was made. -/
def verify (d : Sample) (s : Store) : Verdict :=
  let h := s.heap
  match d.head? h with
  | none => .corrupted .sampleRootMissing
  | some head =>
    match h.walkAll head with
    | none => .endless
    | some cells =>
      let cars := cells.map fun p => ((h.get? p).getD .blank).car
      if cells.length ≠ 5 then .corrupted (.sampleLength cells.length)
      else if cars.map (·.kind) ≠ expectedKinds then .corrupted (.sampleKinds (cars.map (·.kind)))
      else if !d.payloadsIntact cars then .corrupted .samplePayloads
      else if h.roots.get? d.second ≠ cells[1]? ∨ h.roots.get? d.fourth ≠ cells[3]? then
        .corrupted .sampleRootNotMoved
      else if s.values.count d.linked ≠ 2 then
        .corrupted (.linkedReferences (s.values.count d.linked))
      else .intact

/-- Gives up the files. -/
def drop (d : Sample) (s : Store) : Store := (s.release d.linked).release d.orphan

/-- Takes the roots away and gives up the files. -/
def release (d : Sample) (s : Store) : Store :=
  d.drop (s.mapHeap (·.mapRoots fun r => ((r.erase d.head).erase d.second).erase d.fourth))

end Sample

end Tenure
