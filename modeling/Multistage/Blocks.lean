import Multistage.Fault
import Multistage.Numbering

/-!
Tables cut into blocks of equal length, and the table in which every distinct block is kept
once.
-/

namespace Multistage

abbrev Table := List Nat

namespace Table

def cutOnto (size : Nat) : Nat → Table → Array Table → Array Table
  | 0, _, blocks => blocks
  | count + 1, table, blocks =>
      cutOnto size count (table.drop size) (blocks.push (table.take size))

def blocks (size count : Nat) (table : Table) : List Table :=
  (cutOnto size count table #[]).toList

theorem cutOnto_toList (size count : Nat) (table : Table) (before : Array Table) :
    (cutOnto size count table before).toList = before.toList ++ blocks size count table := by
  induction count generalizing table before with
  | zero => simp [cutOnto, blocks]
  | succ count ih =>
      simp only [blocks, cutOnto]
      rw [ih, ih (table.drop size) (#[].push (table.take size))]
      simp

@[simp] theorem blocks_zero (size : Nat) (table : Table) : blocks size 0 table = [] := by
  simp [blocks, cutOnto]

@[simp] theorem blocks_succ (size count : Nat) (table : Table) :
    blocks size (count + 1) table =
      table.take size :: blocks size count (table.drop size) := by
  rw [blocks, cutOnto, cutOnto_toList]
  simp

theorem length_blocks (size count : Nat) (table : Table) :
    (blocks size count table).length = count := by
  induction count generalizing table with
  | zero => simp
  | succ count ih => simp [ih]

end Table

/-- A table rewritten as distinct blocks, stored one after the other in `stored`, and the number
of the block that stands at each place, in `index`. -/
structure Deduplicated where
  index : Table
  stored : Table
  deriving DecidableEq

/-- The numbers as they are kept, in 32 bits. A number that needs more loses its upper bits. -/
def Deduplicated.recorded (level : Deduplicated) : Deduplicated :=
  { level with index := level.index.map (· % 0x100000000) }

namespace Table

/-- Keeps one copy of every block of `2 ^ blockBits` entries, in order of first appearance. The
table has to consist of whole blocks, and a block of `2 ^ 64` entries is too long for any. -/
def deduplicate (table : Table) (blockBits : Nat) : Except Fault Deduplicated :=
  if 64 ≤ blockBits then
    .error (.ragged table.length blockBits)
  else if table.length % 1 <<< blockBits ≠ 0 then
    .error (.ragged table.length blockBits)
  else
    let numbering := Numbering.ofList
      (table.blocks (1 <<< blockBits) (table.length / 1 <<< blockBits))
    .ok { index := numbering.index, stored := numbering.distinct.flatten }

def level (table : Table) (blockBits : Nat) : Except Fault Deduplicated :=
  (table.deduplicate blockBits).map Deduplicated.recorded

end Table

end Multistage
