import Multistage.Blocks
import Multistage.ClassWidth
import Multistage.Stage
import Multistage.Widths

/-!
Multistage tables for one choice of widths. The first table is indexed by the high bits of the
input; each entry leads to a block of the next table, and the last table holds the classes.
-/

namespace Multistage

structure Layout where
  widths : List Nat
  tables : List Table
  stages : List Stage
  width : ClassWidth
  deriving DecidableEq

namespace Layout

def indexBytes (table : Table) (stage : Stage) : Nat :=
  2 * (table.length * stage.entryBytes)

def finalBytes (table : Table) (width : ClassWidth) : Nat :=
  2 * ((table.length * width.slotBits + 15) / 16)

def totalBytes (layout : Layout) : Nat :=
  match layout.tables.getLast? with
  | none => 0
  | some last =>
      (List.zipWith indexBytes layout.tables.dropLast layout.stages).foldr (· + ·)
        (finalBytes last layout.width)

/-- Deduplicates from the finest width up. The first result is the index above all the given
widths, the second the table stored for each of them. -/
def stack (map : Table) : List Nat → Except Fault (Table × List Table)
  | [] => .ok (map, [])
  | width :: finer => do
      let (below, tables) ← stack map finer
      let level ← below.level width
      return (level.index, level.stored :: tables)

/-- The stages above tables whose block widths are given beside them, coarsest first. Entries
above a packed final table count storage units, not classes. -/
def stagesOver (width : ClassWidth) : List (Nat × Table) → List Stage
  | [] => []
  | [_] => [Stage.final]
  | _ :: (blockBits, table) :: finer =>
      let shift := blockBits + finer.foldr (fun level bits => level.1 + bits) 0
      let exponent := if finer.isEmpty then width.unitExponent else 0
      Stage.pointing (table.length >>> exponent) (blockBits - exponent) shift ::
        stagesOver width ((blockBits, table) :: finer)

/-- The tables of `map` for the given widths. The widths have to add up to the address bits of
the map, and under an index both a block of the final table and the whole of it have to fill
storage units. -/
def ofMap (map : Table) (widths : List Nat) (width : ClassWidth) : Except Fault Layout :=
  if map.isEmpty then
    .error .emptyMap
  else
    match widths with
    | [] => .error (.partitionCount 0)
    | coarsest :: finer =>
        let finest := finer.getLastD coarsest
        let total := coarsest + finer.foldr (· + ·) 0
        if total ≠ addressBits map.length then
          .error (.widthTotal total (addressBits map.length))
        else if finer ≠ [] ∧ finest < width.unitExponent then
          .error (.blockTooNarrow finest width.unitExponent)
        else do
          let (first, rest) ← stack map finer
          let tables := first :: rest
          if finer ≠ [] ∧ (rest.getLastD first).length % 1 <<< width.unitExponent ≠ 0 then
            .error (.blockTooNarrow finest width.unitExponent)
          else
            .ok { widths, tables, stages := stagesOver width (widths.zip tables), width }

end Layout

end Multistage
