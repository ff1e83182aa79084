/-!
One step of a lookup: which bits of the input pick an entry of a table, how the entry is
stored, and how it becomes the position of a block in the next table.
-/

namespace Multistage

/-- Preshifted entries are stored already moved left by `nextBits`. A mask of zero stands for none,
and entries of zero bytes for the classes of the final table. -/
structure Stage where
  entryBytes : Nat := 0
  preshifted : Bool := false
  extendMask : Nat := 0
  shift : Nat := 0
  nextBits : Nat := 0
  deriving DecidableEq, Inhabited

namespace Stage

def numbersSaveBytes (length nextBits : Nat) : Bool :=
  let blocks := length >>> nextBits
  (decide (0x100 < length) && decide (blocks ≤ 0x100)) ||
    (decide (0x10000 < length) && decide (blocks ≤ 0x10000))

def bytesFor (reach : Nat) : Nat :=
  if reach ≤ 0x100 then 1 else if reach ≤ 0x10000 then 2 else 4

def maskFor (reach : Nat) : Nat :=
  if 0x8000 ≤ reach ∧ reach ≤ 0xFFFF then 0xFFFF else 0

/-- A stage whose entries lead into a table of `length` entries cut into blocks of
`2 ^ nextBits`. Positions are stored unless plain block numbers take fewer bytes. -/
def pointing (length nextBits shift : Nat) : Stage :=
  let numbers := numbersSaveBytes length nextBits
  let reach := if numbers then length >>> nextBits else length
  { entryBytes := bytesFor reach
    preshifted := !numbers
    extendMask := maskFor reach
    shift := shift
    nextBits := nextBits }

def final : Stage :=
  { preshifted := true }

end Stage

end Multistage
