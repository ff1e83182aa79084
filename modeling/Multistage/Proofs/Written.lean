import Multistage.Proofs.Price
import Multistage.Proofs.ReadBack

/-!
The tables of a layout can be written: every entry of an index numbers a block of the next table,
and the bytes of its stage have room for such numbers.
-/

namespace Multistage

namespace Layout

theorem lt_blocks_of_mem_below (map : Table) (width : ClassWidth) (next number : Nat)
    (finer : List Nat) (units : WholeUnits width (next :: finer))
    (member : number ∈ below map (next :: finer)) :
    number < (2 ^ next * (below map finer).variety next) >>> unitBits width finer >>>
      (next - unitBits width finer) := by
  rw [shiftRight_blocks _ _ _ units.unitBits_le]
  exact Table.lt_variety_of_mem_recorded (below map finer) next number member

theorem length_stored_le (map : Table) (width : ClassWidth) (next : Nat) (finer : List Nat) :
    (2 ^ next * (below map finer).variety next) >>> unitBits width finer ≤ map.length := by
  have shorter := Table.two_pow_mul_variety_le (below map finer) next
  rw [length_below] at shorter
  calc (2 ^ next * (below map finer).variety next) >>> unitBits width finer
      ≤ 2 ^ next * (below map finer).variety next := Nat.shiftRight_le _ _
    _ ≤ map.length / 2 ^ finer.sum := shorter
    _ ≤ map.length := Nat.div_le_self _ _

theorem moved_stageAbove_lt (map : Table) (width : ClassWidth) (next number : Nat)
    (finer : List Nat) (units : WholeUnits width (next :: finer))
    (member : number ∈ below map (next :: finer)) :
    (stageAbove map width next finer).moved number < map.length := by
  have reached := Stage.stored_lt_reach _ _ (next + finer.sum) number
    (lt_blocks_of_mem_below map width next number finer units member)
  rw [Nat.shiftLeft_eq] at reached
  exact Nat.lt_of_lt_of_le reached
    (Nat.le_trans (Stage.reach_le _ _) (length_stored_le map width next finer))

end Layout

namespace Listing

open Layout

theorem register_stageAbove (map : Table) (width : ClassWidth) (next number : Nat)
    (finer : List Nat) (short : map.length < 2 ^ 32) (units : WholeUnits width (next :: finer))
    (member : number ∈ below map (next :: finer)) :
    register (stageAbove map width next finer) number =
      number <<< (stageAbove map width next finer).storedShift := by
  have near := moved_stageAbove_lt map width next number finer units member
  rw [register_eq_moved _ _ (by omega), Stage.moved, Nat.shiftLeft_eq]

theorem register_lt (map : Table) (width : ClassWidth) (next number : Nat) (finer : List Nat)
    (short : map.length < 2 ^ 32) (units : WholeUnits width (next :: finer))
    (member : number ∈ below map (next :: finer)) :
    register (stageAbove map width next finer) number <
      2 ^ (8 * (stageAbove map width next finer).entryBytes) := by
  have atMost := length_stored_le map width next finer
  rw [register_stageAbove map width next number finer short units member]
  exact Stage.stored_lt_two_pow _ _ _ _ (by omega)
    (lt_blocks_of_mem_below map width next number finer units member)

theorem exists_ofIndices (map : Table) (width : ClassWidth) (depth : Nat) (finer : List Nat)
    (table : Table) (short : map.length < 2 ^ 32) (units : WholeUnits width finer)
    (members : ∀ entry ∈ table, entry ∈ below map finer) :
    ∃ indices, ofIndices depth (table :: storedTables map finer).dropLast
      (stagesBelow map width finer) = .ok indices := by
  refine ⟨_, (ofIndices_eq_ok_iff _ _ _ _).mpr ⟨?_, rfl⟩⟩
  intro pair member entry present
  obtain ⟨next, later, stage, unitsBelow, inside⟩ :=
    exists_stageAbove map width finer table units members pair member
  rw [stage]
  exact register_lt map width next entry later short unitsBelow (inside entry present)

end Listing

namespace Layout

theorem staged_stagesBelow (map : Table) (width : ClassWidth) (finer : List Nat) (table : Table) :
    Decoded.Staged (table :: storedTables map finer) (stagesBelow map width finer) := by
  induction finer generalizing table with
  | nil => trivial
  | cons next finer ih =>
      refine ⟨?_, ih _⟩
      rw [Decoded.Readable, stageAbove, Stage.entryBytes_pointing]
      exact Or.inr (Stage.bytesFor_eq _)

theorem mem_of_mem_getLast (map : Table) (finer : List Nat) (table : Table)
    (members : ∀ entry ∈ table, entry ∈ below map finer) :
    ∀ entry ∈ (table :: storedTables map finer).getLast (List.cons_ne_nil _ _), entry ∈ map := by
  induction finer generalizing table with
  | nil => exact members
  | cons next finer ih =>
      intro entry member
      simp only [storedTables, List.getLast_cons_cons] at member
      exact ih _ (Table.mem_of_mem_stored _ _) entry member

theorem find?_getLast (map : Table) (finer : List Nat) (table : Table) (check : Nat → Bool)
    (aligned : 2 ^ finer.sum ∣ map.length)
    (same : finer = [] → table.find? check = map.find? check) :
    ((table :: storedTables map finer).getLast (List.cons_ne_nil _ _)).find? check =
      map.find? check := by
  induction finer generalizing table with
  | nil => exact same rfl
  | cons next finer ih =>
      rw [List.sum_cons, two_pow_add_dvd_iff] at aligned
      simp only [storedTables, List.getLast_cons_cons]
      refine ih _ aligned.1 ?_
      rintro rfl
      exact map.find?_stored next check (by simpa using aligned.2)

theorem ofLayout_shaped (map : Table) (coarsest : Nat) (finer : List Nat) (width : ClassWidth)
    (table : String) (short : map.length < 2 ^ 32) (fits : Fits map coarsest finer width)
    (few : finer.length < mostStages) :
    ∃ indices, Listing.ofLayout (shaped map coarsest finer width) table =
      (Listing.ofClasses table
        ((below map finer :: storedTables map finer).getLast (List.cons_ne_nil _ _)) width).map
          fun last => indices ++ [last] := by
  obtain ⟨indices, written⟩ := Listing.exists_ofIndices map width 0 finer (below map finer) short
    fits.wholeUnits fun _ member => member
  have count : (shaped map coarsest finer width).tables.length ≤ mostStages := by
    simp only [shaped, List.length_cons, length_storedTables]
    exact few
  rw [← stagesOver_storedTables map width coarsest finer (below map finer)] at written
  exact ⟨indices, Listing.ofLayout_eq_map _ table (List.cons_ne_nil _ _) count indices written⟩

theorem exists_ofLayout (map : Table) (coarsest : Nat) (finer : List Nat) (width : ClassWidth)
    (table : String) (short : map.length < 2 ^ 32) (fits : Fits map coarsest finer width)
    (few : finer.length < mostStages) (classes : ∀ value ∈ map, value ≤ width.max) :
    ∃ listings, Listing.ofLayout (shaped map coarsest finer width) table = .ok listings := by
  obtain ⟨indices, written⟩ := ofLayout_shaped map coarsest finer width table short fits few
  have last := (Listing.ofClasses_eq_ok_iff table
    ((below map finer :: storedTables map finer).getLast (List.cons_ne_nil _ _)) width _).mpr
    ⟨fun value member => classes value
      (mem_of_mem_getLast map finer _ (fun _ member => member) value member), rfl⟩
  rw [last] at written
  exact ⟨_, written⟩

theorem ofLayout_eq_error (map : Table) (coarsest : Nat) (finer : List Nat) (width : ClassWidth)
    (table : String) (short : map.length < 2 ^ 32) (fits : Fits map coarsest finer width)
    (few : finer.length < mostStages) (value : Nat)
    (oversized : (map.find? fun value => width.max < value) = some value) :
    Listing.ofLayout (shaped map coarsest finer width) table =
      .error (.entryTooBig table value width.bits) := by
  obtain ⟨indices, written⟩ := ofLayout_shaped map coarsest finer width table short fits few
  have first := find?_getLast map finer (below map finer) (fun value => width.max < value)
    fits.aligned (by rintro rfl; rfl)
  rw [written, (Listing.ofClasses_eq_error_iff _ _ _ _).mpr ⟨value, first.trans oversized, rfl⟩]
  rfl

end Layout

end Multistage
