import Multistage.Layout
import Multistage.Proofs.Deduplicated
import Multistage.Proofs.Outcome

/-!
The tables of a layout, level by level. As long as 32 bits number the blocks of every level, the
index above some widths numbers the segments of the map that are as long as those widths span.
-/

namespace Multistage.Layout

/-- The table above the given widths: the map itself, or the recorded numbers of blocks. -/
def below (map : Table) : List Nat → Table
  | [] => map
  | width :: finer => ((below map finer).condensed width).recorded.index

def storedTables (map : Table) : List Nat → List Table
  | [] => []
  | width :: finer => ((below map finer).condensed width).stored :: storedTables map finer

theorem length_below (map : Table) (finer : List Nat) :
    (below map finer).length = map.length / 2 ^ finer.sum := by
  induction finer with
  | nil => simp [below]
  | cons width finer ih =>
      rw [below, Deduplicated.recorded, List.length_map, Table.length_condensed_index, ih,
        Nat.div_div_eq_div_mul, ← Nat.pow_add, List.sum_cons, Nat.add_comm]

theorem length_storedTables (map : Table) (finer : List Nat) :
    (storedTables map finer).length = finer.length := by
  induction finer with
  | nil => rfl
  | cons width finer ih => simp [storedTables, ih]

section Numbered

/-- 32 bits number the different segments of the map at every level of the given widths. -/
def Numbered (map : Table) (finer : List Nat) : Prop :=
  ∀ place < finer.length, (segments (2 ^ (finer.drop place).sum) map).toFinset.card ≤ 2 ^ 32

theorem numbered_cons (map : Table) (width : Nat) (finer : List Nat) :
    Numbered map (width :: finer) ↔
      map.variety (width + finer.sum) ≤ 2 ^ 32 ∧ Numbered map finer := by
  rw [Numbered, List.length_cons, Nat.forall_lt_succ_left]
  rfl

theorem numbered_of_short (map : Table) (finer : List Nat) (short : map.length ≤ 2 ^ 32) :
    Numbered map finer :=
  fun _ _ => Nat.le_trans (map.variety_le_length _) short

variable (map : Table) (width : Nat) (finer : List Nat)

theorem below_cons (numbered : Numbered map finer) :
    below map (width :: finer) = (map.condensed (width + finer.sum)).recorded.index := by
  induction finer generalizing width with
  | nil => simp [below]
  | cons next finer ih =>
      obtain ⟨few, numberedBelow⟩ := (numbered_cons map next finer).mp numbered
      rw [below, ih next numberedBelow, Table.recorded_condensed map _ few,
        Deduplicated.recorded, Deduplicated.recorded,
        (Table.condensed_condensed map width (next + finer.sum)).1, List.sum_cons]

theorem below_eq_index (numbered : Numbered map (width :: finer)) :
    below map (width :: finer) = (map.condensed (width + finer.sum)).index := by
  obtain ⟨few, numberedBelow⟩ := (numbered_cons map width finer).mp numbered
  rw [below_cons map width finer numberedBelow, Table.recorded_condensed map _ few]

theorem variety_below (numbered : Numbered map finer) :
    (below map finer).variety width = map.variety (width + finer.sum) := by
  cases finer with
  | nil => simp [below]
  | cons next finer =>
      rw [below_eq_index map next finer numbered, Table.variety_condensed, List.sum_cons]

theorem condensed_below (numbered : Numbered map (width :: finer)) :
    ((below map finer).condensed width).index = below map (width :: finer) := by
  obtain ⟨few, numberedBelow⟩ := (numbered_cons map width finer).mp numbered
  rw [← variety_below map width finer numberedBelow] at few
  rw [below, Table.recorded_condensed _ _ few]

end Numbered

theorem two_pow_add_dvd_iff (upper lower length : Nat) :
    2 ^ (upper + lower) ∣ length ↔ 2 ^ lower ∣ length ∧ 2 ^ upper ∣ length / 2 ^ lower := by
  rw [Nat.pow_add, Nat.mul_comm]
  constructor
  · intro divides
    have lowerDivides := Nat.dvd_trans (Nat.dvd_mul_right _ _) divides
    exact ⟨lowerDivides, (Nat.dvd_div_iff_mul_dvd lowerDivides).mpr divides⟩
  · rintro ⟨lowerDivides, upperDivides⟩
    exact (Nat.dvd_div_iff_mul_dvd lowerDivides).mp upperDivides

theorem stack_eq_ok_iff (map : Table) (finer : List Nat) (result : Table × List Table) :
    stack map finer = .ok result ↔
      (∀ width ∈ finer, width < 64) ∧ 2 ^ finer.sum ∣ map.length ∧
        result = (below map finer, storedTables map finer) := by
  induction finer generalizing result with
  | nil => simp [stack, below, storedTables, eq_comm]
  | cons width finer ih =>
      rw [List.sum_cons, two_pow_add_dvd_iff, List.forall_mem_cons, stack]
      simp only [bind_eq_ok_iff, pure_eq_ok_iff, ih, Table.level_eq_ok_iff]
      constructor
      · rintro ⟨_, ⟨narrow, aligned, rfl⟩, level, ⟨widthNarrow, widthAligned, rfl⟩, rfl⟩
        rw [length_below] at widthAligned
        exact ⟨⟨widthNarrow, narrow⟩, ⟨aligned, widthAligned⟩, rfl⟩
      · rintro ⟨⟨widthNarrow, narrow⟩, ⟨aligned, widthAligned⟩, rfl⟩
        rw [← length_below] at widthAligned
        exact ⟨_, ⟨narrow, aligned, rfl⟩, _, ⟨widthNarrow, widthAligned, rfl⟩, rfl⟩

/-- The finest width of a stack that hangs under an index leaves room for whole storage units. -/
def WholeUnits (width : ClassWidth) : List Nat → Prop
  | [] => True
  | [finest] => width.unitExponent ≤ finest
  | _ :: next :: finer => WholeUnits width (next :: finer)

theorem wholeUnits_iff (width : ClassWidth) (coarsest : Nat) (finer : List Nat) :
    WholeUnits width finer ↔ ¬ (finer ≠ [] ∧ finer.getLastD coarsest < width.unitExponent) := by
  induction finer generalizing coarsest with
  | nil => simp [WholeUnits]
  | cons next finer ih =>
      cases finer with
      | nil => simp [WholeUnits]
      | cons after finer => simpa [WholeUnits, List.getLast?_cons] using ih next

structure Fits (map : Table) (coarsest : Nat) (finer : List Nat) (width : ClassWidth) :
    Prop where
  nonempty : map ≠ []
  total : coarsest + finer.sum = addressBits map.length
  wholeUnits : WholeUnits width finer
  narrow : ∀ one ∈ finer, one < 64
  aligned : 2 ^ finer.sum ∣ map.length

def shaped (map : Table) (coarsest : Nat) (finer : List Nat) (width : ClassWidth) : Layout :=
  let widths := coarsest :: finer
  let tables := below map finer :: storedTables map finer
  { widths, tables, stages := stagesOver width (widths.zip tables), width }

theorem final_length_dvd (map : Table) (finer : List Nat) (width : ClassWidth) (first : Table)
    (units : WholeUnits width finer) (under : finer ≠ []) :
    2 ^ width.unitExponent ∣ ((storedTables map finer).getLastD first).length := by
  induction finer generalizing first with
  | nil => contradiction
  | cons next finer ih =>
      rw [storedTables, List.getLastD_cons]
      cases finer with
      | nil =>
          rw [storedTables, List.getLastD_nil, Table.length_condensed_stored]
          exact Nat.dvd_mul_right_of_dvd (Nat.pow_dvd_pow 2 units) _
      | cons after finer => exact ih _ units (List.cons_ne_nil _ _)

/-- The final table fills whole units if its blocks do, so looking at it refuses nothing more. -/
theorem ofMap_cons (map : Table) (coarsest : Nat) (finer : List Nat) (width : ClassWidth) :
    ofMap map (coarsest :: finer) width =
      if map = [] then .error .emptyMap
      else if coarsest + finer.sum ≠ addressBits map.length then
        .error (.widthTotal (coarsest + finer.sum) (addressBits map.length))
      else if finer ≠ [] ∧ finer.getLastD coarsest < width.unitExponent then
        .error (.blockTooNarrow (finer.getLastD coarsest) width.unitExponent)
      else (stack map finer).map fun _ => shaped map coarsest finer width := by
  simp only [ofMap, List.isEmpty_iff, ← List.sum_eq_foldr]
  split
  · rfl
  · split
    · rfl
    · split
      · rfl
      · rename_i wide
        cases stacked : stack map finer with
        | error fault => rfl
        | ok result =>
            obtain ⟨_, _, rfl⟩ := (stack_eq_ok_iff _ _ _).mp stacked
            have filled : ¬ (finer ≠ [] ∧
                ((storedTables map finer).getLastD (below map finer)).length %
                  1 <<< width.unitExponent ≠ 0) := by
              rintro ⟨under, broken⟩
              have units := (wholeUnits_iff width coarsest finer).mpr wide
              rw [Nat.one_shiftLeft] at broken
              exact broken (Nat.mod_eq_zero_of_dvd
                (final_length_dvd map finer width _ units under))
            simp only [bind, Except.bind, filled, if_false, Except.map, shaped]

theorem ofMap_eq_ok_iff (map : Table) (widths : List Nat) (width : ClassWidth)
    (layout : Layout) :
    ofMap map widths width = .ok layout ↔
      ∃ coarsest finer, widths = coarsest :: finer ∧ Fits map coarsest finer width ∧
        layout = shaped map coarsest finer width := by
  cases widths with
  | nil => by_cases empty : map.isEmpty <;> simp [ofMap, empty]
  | cons coarsest finer =>
      rw [ofMap_cons]
      constructor
      · intro succeeded
        split_ifs at succeeded with empty total wide
        obtain ⟨_, stacked, rfl⟩ := (map_eq_ok_iff _ _ _).mp succeeded
        obtain ⟨narrow, aligned, _⟩ := (stack_eq_ok_iff _ _ _).mp stacked
        exact ⟨coarsest, finer, rfl, ⟨empty, Decidable.not_not.mp total,
          (wholeUnits_iff width coarsest finer).mpr wide, narrow, aligned⟩, rfl⟩
      · rintro ⟨_, _, same, fits, rfl⟩
        obtain ⟨rfl, rfl⟩ := List.cons_eq_cons.mp same
        rw [if_neg fits.nonempty, if_neg (not_not_intro fits.total),
          if_neg ((wholeUnits_iff width coarsest finer).mp fits.wholeUnits), map_eq_ok_iff]
        exact ⟨_, (stack_eq_ok_iff _ _ _).mpr ⟨fits.narrow, fits.aligned, rfl⟩, rfl⟩

def unitBits (width : ClassWidth) (finer : List Nat) : Nat :=
  if finer.isEmpty then width.unitExponent else 0

theorem WholeUnits.unitBits_le {width : ClassWidth} {next : Nat} {finer : List Nat}
    (units : WholeUnits width (next :: finer)) : unitBits width finer ≤ next := by
  cases finer with
  | nil => exact units
  | cons after finer => exact Nat.zero_le next

theorem WholeUnits.tail {width : ClassWidth} {next : Nat} {finer : List Nat}
    (units : WholeUnits width (next :: finer)) : WholeUnits width finer := by
  cases finer with
  | nil => trivial
  | cons after finer => exact units

def stageAbove (map : Table) (width : ClassWidth) (next : Nat) (finer : List Nat) : Stage :=
  Stage.pointing ((2 ^ next * (below map finer).variety next) >>> unitBits width finer)
    (next - unitBits width finer) (next + finer.sum)

def stagesBelow (map : Table) (width : ClassWidth) : List Nat → List Stage
  | [] => [Stage.final]
  | next :: finer => stageAbove map width next finer :: stagesBelow map width finer

theorem stagesOver_storedTables (map : Table) (width : ClassWidth) (coarsest : Nat)
    (finer : List Nat) (table : Table) :
    stagesOver width ((coarsest :: finer).zip (table :: storedTables map finer)) =
      stagesBelow map width finer := by
  induction finer generalizing coarsest table with
  | nil => rfl
  | cons next finer ih =>
      have first : (finer.zip (storedTables map finer)).map Prod.fst = finer :=
        List.map_fst_zip (by rw [length_storedTables])
      have widths : (finer.zip (storedTables map finer)).foldr
          (fun level bits => level.1 + bits) 0 = finer.sum := by
        rw [List.sum_eq_foldr, ← List.foldr_map (f := Prod.fst), first]
      have none : (finer.zip (storedTables map finer)).isEmpty = finer.isEmpty := by
        cases finer <;> rfl
      rw [stagesBelow, ← ih next ((below map finer).condensed next).stored]
      simp only [storedTables, List.zip_cons_cons, stagesOver, widths, none,
        Table.length_condensed_stored, unitBits, stageAbove]

theorem stages_shaped (map : Table) (coarsest : Nat) (finer : List Nat) (width : ClassWidth) :
    (shaped map coarsest finer width).stages = stagesBelow map width finer :=
  stagesOver_storedTables map width coarsest finer (below map finer)

theorem length_stagesBelow (map : Table) (width : ClassWidth) (finer : List Nat) :
    (stagesBelow map width finer).length = finer.length + 1 := by
  induction finer with
  | nil => rfl
  | cons next finer ih => rw [stagesBelow, List.length_cons, ih, List.length_cons]

theorem exists_stageAbove (map : Table) (width : ClassWidth) (finer : List Nat) (table : Table)
    (units : WholeUnits width finer) (members : ∀ entry ∈ table, entry ∈ below map finer) :
    ∀ pair ∈ (table :: storedTables map finer).dropLast.zip (stagesBelow map width finer),
      ∃ next later, pair.2 = stageAbove map width next later ∧ WholeUnits width (next :: later) ∧
        ∀ entry ∈ pair.1, entry ∈ below map (next :: later) := by
  induction finer generalizing table with
  | nil => simp [storedTables]
  | cons next finer ih =>
      rw [storedTables, List.dropLast_cons_of_ne_nil (List.cons_ne_nil _ _), stagesBelow,
        List.zip_cons_cons, List.forall_mem_cons]
      exact ⟨⟨next, finer, rfl, units, members⟩, ih _ units.tail (Table.mem_of_mem_stored _ _)⟩

theorem getElem?_storedTables (map : Table) (finer : List Nat) (place : Nat)
    (bound : place < finer.length) :
    (storedTables map finer)[place]? =
      some ((below map (finer.drop (place + 1))).condensed finer[place]).stored := by
  induction finer generalizing place with
  | nil => simp at bound
  | cons width finer ih =>
      cases place with
      | zero => simp [storedTables]
      | succ place => simpa [storedTables] using ih place (by simpa using bound)

/-- A table below the topmost one keeps one copy of each different segment of the map that its
width and the finer ones span together, as long as 32 bits number the segments of the levels under
it. The topmost table is then the index of a single level; without a width below, it is the map. -/
theorem tables_of_ofMap (map : Table) (widths : List Nat) (width : ClassWidth) (layout : Layout)
    (built : ofMap map widths width = .ok layout) :
    (∀ stage, 1 ≤ stage → (bound : stage < widths.length) →
      Numbered map (widths.drop (stage + 1)) →
      ∃ table, layout.tables[stage]? = some table ∧
        table.length = 2 ^ widths[stage] *
          (segments (2 ^ (widths.drop stage).sum) map).toFinset.card) ∧
      (1 < widths.length → map.length < 2 ^ 64 → Numbered map (widths.drop 2) →
        ∃ level, map.level (widths.drop 1).sum = .ok level ∧
          layout.tables[0]? = some level.index) ∧
      (widths.length = 1 → layout.tables = [map]) := by
  obtain ⟨coarsest, finer, rfl, fits, rfl⟩ := (ofMap_eq_ok_iff _ _ _ _).mp built
  refine ⟨?_, ?_, ?_⟩
  · intro stage positive bound numbered
    obtain ⟨place, rfl⟩ := Nat.exists_eq_add_of_le' positive
    have inside : place < finer.length := by simpa using bound
    refine ⟨_, getElem?_storedTables map finer place inside, ?_⟩
    rw [List.drop_succ_cons] at numbered
    rw [Table.length_condensed_stored, variety_below map _ _ numbered, Table.variety,
      List.drop_succ_cons, List.drop_eq_getElem_cons inside, List.sum_cons, List.getElem_cons_succ]
  · intro deep addressable numbered
    have short : finer.sum < 64 := by
      have positive : 0 < map.length := List.length_pos_of_ne_nil fits.nonempty
      exact (Nat.pow_lt_pow_iff_right (by omega)).mp
        (Nat.lt_of_le_of_lt (Nat.le_of_dvd positive fits.aligned) addressable)
    refine ⟨(map.condensed finer.sum).recorded, ?_, ?_⟩
    · exact (Table.level_eq_ok_iff _ _ _).mpr ⟨short, fits.aligned, rfl⟩
    · cases finer with
      | nil => simp at deep
      | cons next finer => exact congrArg some (below_cons map next finer numbered)
  · intro single
    obtain rfl : finer = [] := by simpa using single
    rfl

theorem tables_of_ofMap_repeated_blocks :
    (∃ layout, ofMap [7, 7, 7, 7, 7, 7, 8, 9] [1, 1, 1] .sixteen = .ok layout ∧
      layout.tables = [[0, 1], [0, 0, 0, 1], [7, 7, 8, 9]] ∧
      (∃ table, layout.tables[1]? = some table ∧
        table.length = 2 * (segments 4 [7, 7, 7, 7, 7, 7, 8, 9]).toFinset.card) ∧
      (∃ level, Table.level [7, 7, 7, 7, 7, 7, 8, 9] 2 = .ok level ∧
        layout.tables[0]? = some level.index)) ∧
      (∃ layout, ofMap [5, 6, 5] [2] .one = .ok layout ∧ layout.tables = [[5, 6, 5]]) := by
  have deep : ofMap [7, 7, 7, 7, 7, 7, 8, 9] [1, 1, 1] .sixteen = .ok
      { widths := [1, 1, 1], tables := [[0, 1], [0, 0, 0, 1], [7, 7, 8, 9]],
        stages := [Stage.pointing 4 1 2, Stage.pointing 4 1 1, Stage.final],
        width := .sixteen } := by cbv
  have single : ofMap [5, 6, 5] [2] .one = .ok
      { widths := [2], tables := [[5, 6, 5]], stages := [Stage.final], width := .one } := by cbv
  have numbered (finer : List Nat) : Numbered [7, 7, 7, 7, 7, 7, 8, 9] finer :=
    numbered_of_short _ _ (by decide)
  have deepTables := tables_of_ofMap _ _ _ _ deep
  exact ⟨⟨_, deep, rfl, deepTables.1 1 (by decide) (by decide) (numbered _),
    deepTables.2.1 (by decide) (by decide) (numbered _)⟩,
    ⟨_, single, (tables_of_ofMap _ _ _ _ single).2.2 rfl⟩⟩

section Crowded

theorem variety_range (count : Nat) : Table.variety (List.range (2 * count)) 1 = count := by
  have different : (segments 2 (List.range (2 * count))).Nodup := by
    rw [segments_two_range]
    refine List.Nodup.map_on ?_ List.nodup_range
    intro first _ second _ same
    simp only [List.cons.injEq] at same
    omega
  rw [Table.variety, Nat.pow_one, List.toFinset_card_of_nodup different, segments_two_range,
    List.length_map, List.length_range]

theorem variety_range_mod (count : Nat) (some : 0 < count) :
    Table.variety ((List.range (2 * (count + 1))).map (· % (2 * count))) 1 = count := by
  have first : [2 * count % (2 * count), (2 * count + 1) % (2 * count)] = [0, 1] := by
    rw [Nat.mod_self, Nat.add_mod_left, Nat.mod_eq_of_lt (by omega)]
  have pairs : segments 2 ((List.range (2 * (count + 1))).map (· % (2 * count))) =
      segments 2 (List.range (2 * count)) ++ [[0, 1]] := by
    rw [segments_two_map, segments_two_range, List.range_succ, List.map_append,
      List.map_singleton, first]
    congr 1
    apply List.map_congr_left
    intro place member
    have inside := List.mem_range.mp member
    rw [Nat.mod_eq_of_lt (by omega), Nat.mod_eq_of_lt (by omega)]
  have known : [0, 1] ∈ segments 2 (List.range (2 * count)) := by
    rw [segments_two_range, List.mem_map]
    exact ⟨0, List.mem_range.mpr some, rfl⟩
  have same : (segments 2 (List.range (2 * count)) ++ [[0, 1]]).toFinset =
      (segments 2 (List.range (2 * count))).toFinset := by
    rw [List.toFinset_append, Finset.union_eq_left]
    simpa using known
  rw [Table.variety, Nat.pow_one, pairs, same]
  simpa [Table.variety] using variety_range count

/-- Pairs of entries that all differ, two more than 32 bits can number. -/
def crowded : Table :=
  (List.range (2 * (2 ^ 32 + 2))).map fun place =>
    if place < 2 ^ 32 then place
    else if place < 2 ^ 33 - 2 then place - 2 ^ 32 + 1
    else 2 * (place - (2 ^ 33 - 2))

theorem length_crowded : crowded.length = 2 * (2 ^ 32 + 2) := by
  rw [crowded, List.length_map, List.length_range]

theorem index_crowded : (crowded.condensed 1).index = List.range (2 * (2 ^ 31 + 1)) := by
  have different : (segments 2 crowded).Nodup := by
    rw [crowded, segments_two_map]
    refine List.Nodup.map_on ?_ List.nodup_range
    intro first firstInside second secondInside same
    rw [List.mem_range] at firstInside secondInside
    simp only [List.cons.injEq] at same
    obtain ⟨firstSame, secondSame, _⟩ := same
    split_ifs at firstSame secondSame <;> omega
  have pairs : (segments 2 crowded).length = 2 * (2 ^ 31 + 1) := by
    rw [length_segments, length_crowded, Nat.mul_div_cancel_left _ Nat.two_pos]
    decide
  rw [Table.condensed, Nat.pow_one, Numbering.index_of_nodup _ different, pairs]

/-- The last two of the pairs get the numbers 0 and 1 again, so that two different segments of
four entries are stored as one. -/
theorem tables_of_ofMap_crowded :
    ∃ layout table, ofMap crowded [32, 1, 1] .sixteen = .ok layout ∧
      layout.tables[1]? = some table ∧ table.length = 2 ^ 32 ∧
      2 ^ 1 * (segments (2 ^ (1 + 1)) crowded).toFinset.card = 2 ^ 32 + 2 := by
  have fits : Fits crowded 32 [1, 1] .sixteen := by
    refine ⟨?_, ?_, Nat.zero_le _, by simp, ?_⟩
    · rw [← List.length_pos_iff, length_crowded]
      decide
    · rw [length_crowded]
      decide
    · rw [length_crowded]
      decide
  refine ⟨_, ((below crowded [1]).condensed 1).stored,
    (ofMap_eq_ok_iff _ _ _ _).mpr ⟨32, [1, 1], rfl, fits, rfl⟩, rfl, ?_, ?_⟩
  · have word : 0x100000000 = 2 * 2 ^ 31 := by decide
    have recorded : below crowded [1] = (List.range (2 * (2 ^ 31 + 1))).map (· % (2 * 2 ^ 31)) := by
      simp only [below, Deduplicated.recorded, index_crowded, word]
    rw [Table.length_condensed_stored, recorded, variety_range_mod _ (by decide)]
    decide
  · have segments : crowded.variety (1 + 1) = 2 ^ 31 + 1 := by
      rw [← Table.variety_condensed, index_crowded, variety_range]
    rw [Table.variety] at segments
    rw [segments]
    decide

end Crowded

end Multistage.Layout
