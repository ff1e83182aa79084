import Multistage.Proofs.Oversized

/-!
The bytes that a layout is charged, table by table, against the values that are written for its
tables, two bytes each. No table is charged less than it takes, but for a packed map without an
index, whose last unit is written in full.
-/

namespace Multistage

namespace Listing

theorem length_indexValues (stage : Stage) (entries : Table) :
    (indexValues stage entries).length =
      if 16 < 8 * stage.entryBytes then 2 * entries.length else entries.length := by
  rw [indexValues]
  split
  · rw [length_flatMap_halves, List.length_map]
  · rw [List.length_map, List.length_map]

theorem length_classValues (width : ClassWidth) (classes : Table) :
    (classValues width classes).length =
      if width.isPacked then 2 * ((classes.length + width.perUnit - 1) / width.perUnit)
      else classes.length := by
  rw [classValues]
  split
  · rw [length_flatMap_halves, length_unitWords]
  · rw [List.length_map]

theorem decode_of_mem_ofLayout (layout : Layout) (table : String) (listings : List Listing)
    (nonempty : layout.tables ≠ []) (written : ofLayout layout table = .ok listings) :
    ∀ listing ∈ listings, ∃ values, values.length = listing.length ∧
      Literal.decode listing.literal.text listing.length = .ok values := by
  obtain ⟨_, indices, last, indicesWritten, lastWritten, rfl⟩ :=
    (ofLayout_eq_ok_iff layout table listings nonempty).mp written
  intro listing member
  obtain ⟨name, values, rfl⟩ : ∃ name values, listing = spelling name values := by
    rcases List.mem_append.mp member with index | final
    · rw [((ofIndices_eq_ok_iff _ _ _ _).mp indicesWritten).2] at index
      obtain ⟨_, _, rfl⟩ := List.mem_map.mp index
      exact ⟨_, _, rfl⟩
    · rw [List.mem_singleton.mp final]
      exact ⟨_, _, ((ofClasses_eq_ok_iff _ _ _ _).mp lastWritten).2⟩
  exact ⟨values, rfl, Literal.decode_ofValues values⟩

end Listing

namespace Layout

open Listing

def charges (layout : Layout) : List Nat :=
  List.zipWith indexBytes layout.tables.dropLast layout.stages ++
    layout.tables.getLast?.toList.map fun classes => finalBytes classes layout.width

theorem sum_charges (layout : Layout) : layout.charges.sum = layout.totalBytes := by
  rw [charges, totalBytes, List.sum_eq_foldr, List.foldr_append]
  cases finest : layout.tables.getLast? with
  | none =>
      rw [List.getLast?_eq_none_iff.mp finest]
      rfl
  | some classes => rfl

theorem indexBytes_eq (entries : Table) (stage : Stage)
    (sized : stage.entryBytes = 1 ∨ stage.entryBytes = 2 ∨ stage.entryBytes = 4) :
    indexBytes entries stage =
      (if stage.entryBytes = 1 then 2 else 4) * (indexValues stage entries).length := by
  rw [indexBytes, length_indexValues]
  rcases sized with one | two | four
  · rw [one, if_pos rfl, if_neg (by decide)]
    omega
  · rw [two, if_neg (by decide), if_neg (by decide)]
    omega
  · rw [four, if_neg (by decide), if_pos (by decide)]
    omega

theorem lengths_ofIndices (depth : Nat) (tables : List Table) (stages : List Stage)
    (indices : List Listing) (written : ofIndices depth tables stages = .ok indices) :
    indices.map Listing.length =
      (tables.zip stages).map fun pair => (indexValues pair.2 pair.1).length := by
  obtain ⟨_, rfl⟩ := (ofIndices_eq_ok_iff _ _ _ _).mp written
  conv_rhs => rw [← List.zipIdx_map_fst depth (tables.zip stages)]
  rw [List.map_map, List.map_map]
  rfl

theorem sum_lengths_le (pairs : List (Table × Stage))
    (sized : ∀ pair ∈ pairs,
      pair.2.entryBytes = 1 ∨ pair.2.entryBytes = 2 ∨ pair.2.entryBytes = 4) :
    2 * (pairs.map fun pair => (indexValues pair.2 pair.1).length).sum ≤
      (pairs.map fun pair => indexBytes pair.1 pair.2).sum := by
  induction pairs with
  | nil => simp
  | cons pair pairs ih =>
      obtain ⟨first, later⟩ := List.forall_mem_cons.mp sized
      have rest := ih later
      simp only [List.map_cons, List.sum_cons, indexBytes_eq pair.1 pair.2 first]
      split <;> omega

def spareBytes (count : Nat) (width : ClassWidth) : Nat :=
  let rest := count * width.bits % 32
  if width.isPacked ∧ 1 ≤ rest ∧ rest ≤ 16 then 2 else 0

theorem units_eq (count : Nat) (width : ClassWidth) :
    (count + width.perUnit - 1) / width.perUnit = (count * width.bits + 31) / 32 := by
  cases width <;> simp only [ClassWidth.perUnit, ClassWidth.bits] <;> omega

theorem finalBytes_add_spareBytes (classes : Table) (width : ClassWidth) :
    finalBytes classes width + spareBytes classes.length width =
      2 * (classValues width classes).length := by
  rw [length_classValues, finalBytes, spareBytes, units_eq, ClassWidth.slotBits]
  by_cases packed : width.isPacked
  · simp only [packed, if_true, true_and]
    split <;> omega
  · simp only [packed, Bool.false_eq_true, if_false, false_and]
    omega

theorem spareBytes_le (count : Nat) (width : ClassWidth) : spareBytes count width ≤ 2 := by
  rw [spareBytes]
  split <;> omega

theorem spareBytes_of_unpacked (count : Nat) (width : ClassWidth)
    (unpacked : width.isPacked = false) : spareBytes count width = 0 := by
  simp [spareBytes, unpacked]

theorem spareBytes_eq_zero (count : Nat) (width : ClassWidth)
    (whole : 2 ^ width.unitExponent ∣ count) : spareBytes count width = 0 := by
  rw [spareBytes]
  split
  · rename_i spare
    obtain ⟨units, rfl⟩ := whole
    have filled : 2 ^ width.unitExponent * units * width.bits % 32 = 0 := by
      rw [← perUnit_eq width spare.1, Nat.mul_right_comm, width.perUnit_mul_bits]
      exact Nat.mul_mod_right 32 units
    omega
  · rfl

/-- Written tables beside what a layout is charged for them. The final one may take `spare` bytes
more, at two bytes a value. -/
structure Accounts (layout : Layout) (listings : List Listing) (spare : Nat) : Prop where
  count : listings.length = layout.charges.length
  decoded : ∀ listing ∈ listings, ∃ values, values.length = listing.length ∧
    Literal.decode listing.literal.text listing.length = .ok values
  index : ∀ place, place + 1 < listings.length →
    ∃ stage listing, layout.stages[place]? = some stage ∧ listings[place]? = some listing ∧
      (stage.entryBytes = 1 ∧ layout.charges[place]? = some (2 * listing.length) ∨
        (stage.entryBytes = 2 ∨ stage.entryBytes = 4) ∧
          layout.charges[place]? = some (4 * listing.length))
  final : ∃ listing charge, listings.getLast? = some listing ∧
    layout.charges.getLast? = some charge ∧ charge + spare = 2 * listing.length
  total : 2 * (listings.map Listing.length).sum ≤ layout.totalBytes + spare

structure Sized (layout : Layout) : Prop where
  nonempty : layout.tables ≠ []
  deep : layout.tables.dropLast.length ≤ layout.stages.length
  bytes : ∀ pair ∈ layout.tables.dropLast.zip layout.stages,
    pair.2.entryBytes = 1 ∨ pair.2.entryBytes = 2 ∨ pair.2.entryBytes = 4

namespace Sized

variable {layout : Layout} (sized : Sized layout) (table : String) (indices : List Listing)

include sized

theorem charges_eq : layout.charges =
    ((layout.tables.dropLast.zip layout.stages).map fun pair => indexBytes pair.1 pair.2) ++
      [finalBytes (layout.tables.getLast sized.nonempty) layout.width] := by
  rw [charges, List.getLast?_eq_some_getLast sized.nonempty, ← List.map_uncurry_zip_eq_zipWith]
  rfl

theorem length_pairs :
    (layout.tables.dropLast.zip layout.stages).length = layout.tables.dropLast.length := by
  rw [List.length_zip, Nat.min_eq_left sized.deep]

theorem charges_index (written : ofIndices 0 layout.tables.dropLast layout.stages = .ok indices)
    (place : Nat) (more : place < layout.tables.dropLast.length) :
    ∃ stage listing, layout.stages[place]? = some stage ∧ indices[place]? = some listing ∧
      (stage.entryBytes = 1 ∧ layout.charges[place]? = some (2 * listing.length) ∨
        (stage.entryBytes = 2 ∨ stage.entryBytes = 4) ∧
          layout.charges[place]? = some (4 * listing.length)) := by
  rw [← sized.length_pairs] at more
  have pair := List.getElem?_eq_getElem more
  obtain ⟨entries, stage⟩ := List.getElem?_zip_eq_some.mp pair
  obtain ⟨listing, _⟩ := getElem?_ofIndices 0 place _ _ indices _ _ written entries stage
  have bytes := sized.bytes _ (List.mem_of_getElem? pair)
  refine ⟨_, _, stage, listing, ?_⟩
  rw [sized.charges_eq, List.getElem?_append_left (by rwa [List.length_map]), List.getElem?_map,
    pair, Option.map_some, indexBytes_eq _ _ bytes]
  rcases bytes with one | wider
  · rw [if_pos one]
    exact Or.inl ⟨one, rfl⟩
  · rw [if_neg (by omega)]
    exact Or.inr ⟨wider, rfl⟩

theorem accounts (listings : List Listing) (written : ofLayout layout table = .ok listings) :
    Accounts layout listings
      (spareBytes (layout.tables.getLast sized.nonempty).length layout.width) := by
  have decoded := decode_of_mem_ofLayout layout table listings sized.nonempty written
  obtain ⟨_, indices, last, indicesWritten, lastWritten, rfl⟩ :=
    (ofLayout_eq_ok_iff layout table listings sized.nonempty).mp written
  have lengths := lengths_ofIndices 0 _ _ indices indicesWritten
  have count : indices.length = layout.tables.dropLast.length := by
    rw [← sized.length_pairs, ← List.length_map (f := Listing.length), lengths, List.length_map]
  have length : finalBytes (layout.tables.getLast sized.nonempty) layout.width +
      spareBytes (layout.tables.getLast sized.nonempty).length layout.width = 2 * last.length := by
    rw [finalBytes_add_spareBytes, ((ofClasses_eq_ok_iff _ _ _ _).mp lastWritten).2]
    rfl
  refine ⟨?_, decoded, ?_, ?_, ?_⟩
  · rw [sized.charges_eq, List.length_append, List.length_append, List.length_map,
      sized.length_pairs, count, List.length_singleton, List.length_singleton]
  · intro place more
    rw [List.length_append, List.length_singleton] at more
    obtain ⟨stage, listing, staged, found, charge⟩ :=
      sized.charges_index indices indicesWritten place (by omega)
    exact ⟨stage, listing, staged, (List.getElem?_append_left (by omega)).trans found, charge⟩
  · refine ⟨last, _, List.getLast?_concat, ?_, length⟩
    rw [sized.charges_eq, List.getLast?_concat]
  · have total := sum_lengths_le _ sized.bytes
    rw [← sum_charges, sized.charges_eq, List.map_append, lengths, List.sum_append,
      List.sum_append, List.map_singleton, List.sum_singleton, List.sum_singleton]
    omega

end Sized

theorem sized_shaped (map : Table) (coarsest : Nat) (finer : List Nat) (width : ClassWidth)
    (units : WholeUnits width finer) : Sized (shaped map coarsest finer width) := by
  refine ⟨List.cons_ne_nil _ _, ?_, ?_⟩
  · rw [stages_shaped, length_stagesBelow]
    simp [shaped, length_storedTables]
  · intro pair member
    rw [stages_shaped] at member
    obtain ⟨next, later, stage, _⟩ :=
      exists_stageAbove map width finer _ units (fun _ entry => entry) pair member
    rw [stage, stageAbove, Stage.entryBytes_pointing]
    exact Stage.bytesFor_eq _

theorem length_charges_shaped (map : Table) (coarsest : Nat) (finer : List Nat)
    (width : ClassWidth) :
    (shaped map coarsest finer width).charges.length = (coarsest :: finer).length := by
  rw [charges, List.length_append, List.length_zipWith, stages_shaped, length_stagesBelow]
  simp [shaped, length_storedTables]

theorem spareBytes_shaped (map : Table) (coarsest : Nat) (finer : List Nat) (width : ClassWidth)
    (units : WholeUnits width finer) :
    spareBytes ((shaped map coarsest finer width).tables.getLast
      (List.cons_ne_nil _ _)).length width =
        if (coarsest :: finer).length = 1 then spareBytes map.length width else 0 := by
  split
  · rename_i single
    obtain rfl : finer = [] := by simpa using single
    rfl
  · rename_i indexed
    have under : finer ≠ [] := by simpa using indexed
    have last : (shaped map coarsest finer width).tables.getLast
        (List.cons_ne_nil _ _) = (storedTables map finer).getLastD (below map finer) :=
      List.getLast_eq_getLastD _
    rw [last]
    exact spareBytes_eq_zero _ width (final_length_dvd map finer width _ units under)

/-- Every table of a map is charged two bytes for each value written for it, or four if it is an
index with entries of more than one byte. Only a single table of packed classes may be charged two
bytes less than it takes. -/
theorem accounts_ofMap (map : Table) (widths : List Nat) (width : ClassWidth) (table : String)
    (layout : Layout) (listings : List Listing) (built : ofMap map widths width = .ok layout)
    (written : ofLayout layout table = .ok listings) :
    listings.length = widths.length ∧ layout.charges.sum = layout.totalBytes ∧
      Accounts layout listings (if widths.length = 1 then spareBytes map.length width else 0) ∧
      2 * (listings.map Listing.length).sum ≤ layout.totalBytes + 2 ∧
      (1 < widths.length ∨ width.isPacked = false →
        2 * (listings.map Listing.length).sum ≤ layout.totalBytes) := by
  obtain ⟨coarsest, finer, rfl, fits, rfl⟩ := (ofMap_eq_ok_iff _ _ _ _).mp built
  have sized := sized_shaped map coarsest finer width fits.wholeUnits
  have accounts := sized.accounts table listings written
  change Accounts _ _ (spareBytes _ width) at accounts
  rw [spareBytes_shaped map coarsest finer width fits.wholeUnits] at accounts
  have count := accounts.count.trans (length_charges_shaped map coarsest finer width)
  have total := accounts.total
  refine ⟨count, sum_charges _, accounts, ?_, ?_⟩
  · have atMost := spareBytes_le map.length width
    split at total <;> omega
  · rintro (indexed | unpacked)
    · rwa [if_neg (by omega), Nat.add_zero] at total
    · rwa [spareBytes_of_unpacked _ width unpacked, ite_self, Nat.add_zero] at total

theorem accounts_ofMap_with_and_without_index :
    (∃ layout listings, ofMap [7, 7, 7, 7, 7, 7, 8, 9] [1, 1, 1] .sixteen = .ok layout ∧
      ofLayout layout "T" = .ok listings ∧ listings.map Listing.length = [2, 4, 4] ∧
      layout.totalBytes = 20 ∧ Accounts layout listings 0) ∧
      ∃ layout listings, ofMap [1, 0, 1] [2] .one = .ok layout ∧
        ofLayout layout "T" = .ok listings ∧ listings.map Listing.length = [2] ∧
        layout.totalBytes = 2 ∧ Accounts layout listings 2 := by
  have indexed : ofMap [7, 7, 7, 7, 7, 7, 8, 9] [1, 1, 1] .sixteen = .ok
      { widths := [1, 1, 1], tables := [[0, 1], [0, 0, 0, 1], [7, 7, 8, 9]],
        stages := [Stage.pointing 4 1 2, Stage.pointing 4 1 1, Stage.final],
        width := .sixteen } := by cbv
  have single : ofMap [1, 0, 1] [2] .one = .ok
      { widths := [2], tables := [[1, 0, 1]], stages := [Stage.final], width := .one } := by cbv
  obtain ⟨three, threeWritten, lengths⟩ : ∃ listings, ofLayout
      { widths := [1, 1, 1], tables := [[0, 1], [0, 0, 0, 1], [7, 7, 8, 9]],
        stages := [Stage.pointing 4 1 2, Stage.pointing 4 1 1, Stage.final],
        width := .sixteen } "T" = .ok listings ∧ listings.map Listing.length = [2, 4, 4] :=
    ⟨_, rfl, rfl⟩
  obtain ⟨one, oneWritten, length⟩ : ∃ listings, ofLayout
      { widths := [2], tables := [[1, 0, 1]], stages := [Stage.final], width := .one } "T" =
        .ok listings ∧ listings.map Listing.length = [2] := ⟨_, rfl, rfl⟩
  exact ⟨⟨_, three, indexed, threeWritten, lengths, rfl,
      (accounts_ofMap _ _ _ _ _ _ indexed threeWritten).2.2.1⟩,
    _, one, single, oneWritten, length, rfl,
      (accounts_ofMap _ _ _ _ _ _ single oneWritten).2.2.1⟩

end Layout

end Multistage
