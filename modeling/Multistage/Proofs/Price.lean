import Multistage.Proofs.Stack
import Multistage.Proofs.Stage

/-!
The bytes of a layout depend only on how many different blocks each of its levels has.
-/

namespace Multistage.Layout

/-- The bytes of a table with `length` entries and of the tables below it. -/
def bytesFrom (map : Table) (width : ClassWidth) (length : Nat) : List Nat → Nat
  | [] => 2 * ((length * width.slotBits + 15) / 16)
  | next :: finer =>
      let blocks := (below map finer).variety next
      2 * (length * Stage.bytesFor blocks) + bytesFrom map width (2 ^ next * blocks) finer

theorem bytesFrom_cons (map : Table) (width : ClassWidth) (length next : Nat) (finer : List Nat)
    (short : map.length < 2 ^ 32) :
    bytesFrom map width length (next :: finer) =
      2 * (length * Stage.bytesFor (map.variety (next + finer.sum))) +
        bytesFrom map width (2 ^ next * map.variety (next + finer.sum)) finer := by
  rw [bytesFrom, variety_below map next finer (numbered_of_short map finer (Nat.le_of_lt short))]

theorem shiftRight_blocks (blocks blockBits exponent : Nat) (room : exponent ≤ blockBits) :
    (2 ^ blockBits * blocks) >>> exponent >>> (blockBits - exponent) = blocks := by
  rw [← Nat.shiftRight_add, Nat.add_sub_cancel' room, Nat.shiftRight_eq_div_pow,
    Nat.mul_div_cancel_left _ (Nat.two_pow_pos _)]

theorem entryBytes_stageAbove (map : Table) (width : ClassWidth) (next : Nat) (finer : List Nat)
    (units : WholeUnits width (next :: finer)) :
    (stageAbove map width next finer).entryBytes =
      Stage.bytesFor ((below map finer).variety next) := by
  rw [stageAbove, Stage.entryBytes_pointing, shiftRight_blocks _ _ _ units.unitBits_le]

theorem totalBytes_cons (widths : List Nat) (first second : Table) (tables : List Table)
    (stage : Stage) (stages : List Stage) (width : ClassWidth) :
    totalBytes { widths, tables := first :: second :: tables, stages := stage :: stages, width } =
      indexBytes first stage +
        totalBytes { widths, tables := second :: tables, stages, width } := by
  have last := List.getLast?_eq_some_getLast (List.cons_ne_nil second tables)
  simp only [totalBytes, List.getLast?_cons_cons, last,
    List.dropLast_cons_of_ne_nil (List.cons_ne_nil second tables), List.zipWith_cons_cons,
    List.foldr_cons]

theorem totalBytes_stack (map : Table) (width : ClassWidth) (widths finer : List Nat)
    (table : Table) (units : WholeUnits width finer) :
    totalBytes
        { widths
          tables := table :: storedTables map finer
          stages := stagesBelow map width finer
          width } =
      bytesFrom map width table.length finer := by
  induction finer generalizing table with
  | nil => simp [totalBytes, storedTables, bytesFrom, finalBytes]
  | cons next finer ih =>
      have lower := ih ((below map finer).condensed next).stored units.tail
      rw [Table.length_condensed_stored] at lower
      rw [stagesBelow, bytesFrom, ← lower]
      simp only [storedTables, totalBytes_cons, indexBytes,
        entryBytes_stageAbove map width next finer units]

theorem totalBytes_shaped (map : Table) (coarsest : Nat) (finer : List Nat) (width : ClassWidth)
    (units : WholeUnits width finer) :
    (shaped map coarsest finer width).totalBytes =
      bytesFrom map width (map.length / 2 ^ finer.sum) finer := by
  rw [shaped, stagesOver_storedTables, totalBytes_stack _ _ _ _ _ units, length_below]

end Multistage.Layout
