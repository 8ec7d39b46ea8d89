/-
  Tenure — the addresses of cells.

  * `Space`: the buffers a cell may live in.  The young generation has two
    buffers that take turns, the old generation has one.
  * `Address`: a buffer and an index in it.
  * `Semispace`: which of the two young buffers is in use, with `Semispace.other`
    for the one that stands by.

  An address is plain data: it names a place and not a cell.  Whether a cell is
  there now is a question for the heap.
-/

namespace Tenure

/-- The buffer a cell lives in.  Young buffers are numbered by a byte, so that an address
    may also name a young buffer that no heap has. -/
inductive Space
  | young (semispace : UInt8)
  | old
  deriving DecidableEq, Hashable, Repr, Inhabited

/-- The place of a cell: its buffer and its index there, which fits in 32 bits. -/
structure Address where
  space : Space
  index : UInt32
  deriving DecidableEq, Hashable, Repr, Inhabited

namespace Address

/-- The index as a number, for looking into a buffer. -/
def position (p : Address) : Nat := p.index.toNat

/-- Whether the address is in the old generation. -/
def isOld (p : Address) : Bool := p.space == .old

/-- The written form: `y0:3` is the fourth cell of the first young buffer and `o:12` the
    thirteenth old cell. -/
def text (p : Address) : String :=
  match p.space with
  | .young s => s!"y{s.toNat}:{p.index.toNat}"
  | .old => s!"o:{p.index.toNat}"

/-- The number of indices in a buffer, two to the power of 32. -/
def limit : Nat := 4294967296

theorem position_lt (p : Address) : p.position < limit := p.index.toNat_lt

theorem ext_position {p q : Address} (hs : p.space = q.space) (hi : p.position = q.position) :
    p = q := by
  cases p; cases q
  simp only [position] at hi
  simp_all [UInt32.toNat_inj]

end Address

/-- The two young buffers, by number.  One is active and the other stands by, empty. -/
inductive Semispace
  | first
  | second
  deriving DecidableEq, Repr, Inhabited

namespace Semispace

/-- The other young buffer. -/
def other : Semispace → Semispace
  | .first => .second
  | .second => .first

/-- The number by which addresses name the buffer. -/
def number : Semispace → UInt8
  | .first => 0
  | .second => 1

/-- The buffer as a space. -/
def space (s : Semispace) : Space := .young s.number

end Semispace

end Tenure
