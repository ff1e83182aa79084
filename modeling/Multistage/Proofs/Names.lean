import Multistage.Proofs.Refusal

/-!
The names that tie the formula of a bundle to its tables. Index tables are lettered, the final
table is called as the settings say; whether two of them share a name depends on how many stages
were chosen. Reading back keeps every table under its name unless two share it.
-/

namespace Multistage

namespace Formula

def tables : Formula → List String
  | input _ => []
  | num _ => []
  | mask _ => []
  | shr left right => left.tables ++ right.tables
  | shl left right => left.tables ++ right.tables
  | and left right => left.tables ++ right.tables
  | or left right => left.tables ++ right.tables
  | index table position => position.tables ++ [table]

theorem tables_shifted (word : Formula) (distance : Nat) :
    (shifted word distance).tables = word.tables := by
  rw [shifted]
  split
  · rfl
  · simp [tables]

theorem tables_position_some (base slice : Formula) (bits : Nat) (plain : slice.tables = []) :
    (position (some base) slice bits).tables = base.tables := by
  rw [position]
  split
  · rfl
  · simp [tables, plain]

theorem tables_fetch (stage : Stage) (table : String) (place : Formula) :
    (fetch stage table place).tables = place.tables ++ [table] := by
  have entry : (if stage.extendMask = 0 then index table place
      else and (index table place) (mask stage.extendMask)).tables =
        place.tables ++ [table] := by
    split <;> simp [tables]
  rw [fetch]
  split
  · exact entry
  · simp [tables, entry]

theorem tables_select (width : ClassWidth) (word unit : Formula) (plain : word.tables = []) :
    (select width word unit).tables = unit.tables := by
  rw [select]
  split
  · by_cases single : Nat.log2 width.bits = 0 <;> simp [tables, plain, single]
  · rfl

theorem tables_descend (table : String) (word : Formula) (width : ClassWidth) (depth : Nat)
    (base : Option Formula) (current : Nat × Stage) (finer : List (Nat × Stage))
    (plain : word.tables = []) :
    (descend table word width depth base current finer).tables =
      (base.map tables).getD [] ++ (List.range' depth finer.length).map indexName ++ [table] := by
  have slice (distance : Nat) : (shifted word distance).tables = [] := by
    rw [tables_shifted, plain]
  have placed (distance bits : Nat) :
      (position base (shifted word distance) bits).tables = (base.map tables).getD [] := by
    cases base with
    | none => exact slice distance
    | some base => exact tables_position_some base _ bits (slice distance)
  induction finer generalizing depth base current with
  | nil => simp [descend, tables_select _ _ _ plain, tables_fetch, placed]
  | cons next finer ih =>
      have above (stage : Stage) (distance bits : Nat) :
          (fetch stage (indexName depth) (position base (shifted word distance) bits)).tables =
            (base.map tables).getD [] ++ [indexName depth] := by
        rw [tables_fetch, placed]
      rw [descend, ih (depth + 1) _ next fun distance bits =>
        tables_position_some _ _ bits (slice distance)]
      simp [above, List.range'_succ]

end Formula

namespace Decoded

theorem fst_of_read (listing : Listing) (wide : Bool) (table : String × Array Nat)
    (succeeded : read listing wide = .ok table) : table.1 = listing.name := by
  rw [read] at succeeded
  split at succeeded
  · rw [← Except.ok.inj succeeded]
  · simp at succeeded

theorem readOnto_keeps (width : ClassWidth) (before tables : List (String × Array Nat))
    (listings : List Listing) (stages : List Stage)
    (succeeded : readOnto width before listings stages = .ok tables) :
    tables.map Prod.fst = (listings.map Listing.name).reverse ++ before.map Prod.fst ∧
      (∀ table ∈ before, table ∈ tables) ∧
      ∀ place listing, listings[place]? = some listing →
        ∃ entries, read listing (wideAt width stages listings.length place) =
          .ok (listing.name, entries) ∧ (listing.name, entries) ∈ tables := by
  induction listings generalizing before stages with
  | nil =>
      obtain rfl : before = tables := by simpa [readOnto] using succeeded
      simp
  | cons listing listings ih =>
      rw [readOnto_cons, bind_eq_ok_iff] at succeeded
      obtain ⟨⟨name, entries⟩, first, later⟩ := succeeded
      obtain rfl : name = listing.name := fst_of_read _ _ _ first
      obtain ⟨names, kept, rest⟩ := ih _ _ later
      refine ⟨by simpa using names, ?_, ?_⟩
      · intro table member
        exact kept table (List.mem_cons_of_mem _ member)
      · intro place other found
        cases place with
        | zero =>
            obtain rfl : listing = other := by simpa using found
            exact ⟨entries, first, kept _ List.mem_cons_self⟩
        | succ place =>
            rw [List.length_cons, wideAt_succ]
            exact rest place other (by simpa using found)

theorem table?_of_nodup (bundle : Bundle) (decoded : Decoded)
    (succeeded : ofBundle bundle = .ok decoded)
    (nodup : (bundle.listings.map Listing.name).Nodup) (place : Nat) (listing : Listing)
    (found : bundle.listings[place]? = some listing) :
    ∃ entries, read listing (wideAt bundle.width bundle.stages bundle.listings.length place) =
      .ok (listing.name, entries) ∧ decoded.table? listing.name = some entries := by
  simp only [ofBundle, bind_eq_ok_iff, pure_eq_ok_iff] at succeeded
  obtain ⟨tables, all, rfl⟩ := succeeded
  obtain ⟨names, _, kept⟩ := readOnto_keeps _ _ _ _ _ all
  obtain ⟨entries, alone, member⟩ := kept place listing found
  refine ⟨entries, alone, lookup_of_mem tables listing.name entries ?_ member⟩
  rwa [names, List.map_nil, List.append_nil, List.nodup_reverse]

theorem nodup_names_iff (table : String) (count : Nat) (few : count ≤ mostStages) :
    ((List.range' 0 (count - 1)).map indexName ++ [table]).Nodup ↔ Distinct table count := by
  constructor
  · intro nodup stage bound same
    have index : indexName stage ∈ (List.range' 0 (count - 1)).map indexName := by
      apply List.mem_map_of_mem
      rw [List.mem_range'_1]
      omega
    exact (List.nodup_append.mp nodup).2.2 _ index table List.mem_cons_self same.symm
  · exact nodup_names table count few

end Decoded

namespace Listing

theorem names_ofIndices (depth : Nat) (tables : List Table) (stages : List Stage)
    (indices : List Listing) (deep : tables.length ≤ stages.length)
    (written : ofIndices depth tables stages = .ok indices) :
    indices.map name = (List.range' depth tables.length).map indexName := by
  obtain ⟨_, rfl⟩ := (ofIndices_eq_ok_iff _ _ _ _).mp written
  have places : ((tables.zip stages).zipIdx depth).map Prod.snd =
      List.range' depth tables.length := by
    rw [List.zipIdx_map_snd, List.length_zip, Nat.min_eq_left deep]
  rw [← places, List.map_map, List.map_map]
  rfl

theorem names_ofLayout (layout : Layout) (table : String) (listings : List Listing)
    (nonempty : layout.tables ≠ []) (deep : layout.tables.length - 1 ≤ layout.stages.length)
    (written : ofLayout layout table = .ok listings) :
    listings.map name = (List.range' 0 (layout.tables.length - 1)).map indexName ++ [table] := by
  obtain ⟨_, indices, last, indicesWritten, lastWritten, rfl⟩ :=
    (ofLayout_eq_ok_iff _ _ _ nonempty).mp written
  obtain ⟨_, rfl⟩ := (ofClasses_eq_ok_iff _ _ _ _).mp lastWritten
  have count : layout.tables.dropLast.length = layout.tables.length - 1 := List.length_dropLast
  have names := names_ofIndices 0 _ _ indices (by omega) indicesWritten
  rw [List.map_append, names, count]
  rfl

end Listing

namespace Layout

variable (map : Table) (coarsest : Nat) (finer : List Nat) (width : ClassWidth)
  (table input : String) (bundle : Bundle)

theorem names_listings
    (made : Bundle.ofLayout (shaped map coarsest finer width) table input = .ok bundle) :
    bundle.listings.map Listing.name =
      (List.range' 0 finer.length).map indexName ++ [table] := by
  obtain ⟨_, listings, _, written, rfl⟩ := (Bundle.ofLayout_eq_ok_iff _ _ _ _).mp made
  have tables : (shaped map coarsest finer width).tables.length = finer.length + 1 := by
    simp [shaped, length_storedTables]
  have stages : (shaped map coarsest finer width).stages.length = finer.length + 1 := by
    rw [stages_shaped, length_stagesBelow]
  have names := Listing.names_ofLayout _ table listings (List.cons_ne_nil _ _) (by omega) written
  rwa [tables, Nat.add_sub_cancel] at names

theorem tables_formula
    (made : Bundle.ofLayout (shaped map coarsest finer width) table input = .ok bundle) :
    bundle.formula.tables = (List.range' 0 finer.length).map indexName ++ [table] := by
  obtain ⟨formula, listings, found, _, rfl⟩ := (Bundle.ofLayout_eq_ok_iff _ _ _ _).mp made
  obtain ⟨_, stage, stages, above, rfl⟩ := (lookup_shaped _ _ _ _ _ _ _).mp found
  have length := length_stagesBelow map width finer
  rw [above, List.length_cons, Nat.add_right_cancel_iff] at length
  simp [Formula.tables_descend _ _ _ _ _ _ _ (rfl : (Formula.input input).tables = []), length]

end Layout

namespace Bundle

/-- The formula reads the tables of a bundle in their order. Their names are all different exactly
if the final table does not go by a letter that an index in use goes by, and then each of them is
kept under its name. -/
theorem nodup_names_listings_iff (classes : List UInt16) (settings : Settings) (bundle : Bundle)
    (made : ofMap classes settings = .ok bundle) :
    bundle.formula.tables = bundle.listings.map Listing.name ∧
      ((bundle.listings.map Listing.name).Nodup ↔
        ∀ stage < bundle.widths.length - 1, settings.table ≠ indexName stage) ∧
      ((bundle.listings.map Listing.name).Nodup →
        ∃ decoded, Decoded.ofBundle bundle = .ok decoded ∧
          ∀ place listing, bundle.listings[place]? = some listing →
            ∃ entries,
              Decoded.read listing (Decoded.wideAt bundle.width bundle.stages
                bundle.listings.length place) = .ok (listing.name, entries) ∧
              decoded.table? listing.name = some entries) := by
  obtain ⟨search, _, ofWidths⟩ := (ofMap_eq_ok_iff _ _ _).mp made
  obtain ⟨layout, built, ofLayout⟩ := (ofWidths_eq_ok_iff _ _ _ _ _ _).mp ofWidths
  obtain ⟨coarsest, finer, _, fits, rfl⟩ := (Layout.ofMap_eq_ok_iff _ _ _ _).mp built
  have names := Layout.names_listings _ _ _ _ _ _ _ ofLayout
  have widths : bundle.widths = coarsest :: finer := by
    obtain ⟨_, _, _, _, rfl⟩ := (ofLayout_eq_ok_iff _ _ _ _).mp ofLayout
    rfl
  have few : finer.length + 1 ≤ mostStages := by
    obtain ⟨_, _, found, _⟩ := (ofLayout_eq_ok_iff _ _ _ _).mp ofLayout
    exact ((Layout.lookup_shaped _ _ _ _ _ _ _).mp found).1
  refine ⟨?_, ?_, ?_⟩
  · rw [names, Layout.tables_formula _ _ _ _ _ _ _ ofLayout]
  · rw [names, widths]
    exact Decoded.nodup_names_iff settings.table (finer.length + 1) few
  · intro nodup
    obtain ⟨decoded, read⟩ := exists_ofBundle classes settings bundle made
    exact ⟨decoded, read, Decoded.table?_of_nodup bundle decoded read nodup⟩

theorem nodup_names_listings_iff_two_stages :
    ∃ bundle, ofMap [1, 1, 1, 1, 1, 1, 2, 0] { partitions := 2 } = .ok bundle ∧
      bundle.formula.tables = ["ZZ_CMAP_Z", "ZZ_CMAP_A"] ∧
      (bundle.listings.map Listing.name).Nodup ∧
      ∃ decoded entries, Decoded.ofBundle bundle = .ok decoded ∧
        decoded.table? "ZZ_CMAP_Z" = some entries := by
  have searched : Search.ofMap [1, 1, 1, 1, 1, 1, 2, 0] 2 .sixteen = .ok
      { trials := (candidates 2 3).map (Trial.run [1, 1, 1, 1, 1, 1, 2, 0] .sixteen)
        choice := ⟨[2, 1], 16⟩ } := by cbv
  have built : Layout.ofMap [1, 1, 1, 1, 1, 1, 2, 0] [2, 1] .sixteen = .ok
      { widths := [2, 1]
        tables := [[0, 0, 0, 1], [1, 1, 2, 0]]
        stages := [Stage.pointing 4 1 1, Stage.final]
        width := .sixteen } := by cbv
  have made : ∃ bundle, ofMap [1, 1, 1, 1, 1, 1, 2, 0] { partitions := 2 } = .ok bundle ∧
      bundle.widths = [2, 1] ∧ bundle.listings.map Listing.name = ["ZZ_CMAP_Z", "ZZ_CMAP_A"] ∧
      ∃ index, bundle.listings[0]? = some index ∧ index.name = "ZZ_CMAP_Z" :=
    ⟨_, (ofMap_eq_ok_iff _ _ _).mpr ⟨_, searched, (ofWidths_eq_ok_iff _ _ _ _ _ _).mpr
      ⟨_, built, (ofLayout_eq_ok_iff _ _ _ _).mpr ⟨_, _, rfl, rfl, rfl⟩⟩⟩, rfl, rfl, _, rfl, rfl⟩
  obtain ⟨bundle, made, widths, names, index, first, name⟩ := made
  obtain ⟨reads, different, kept⟩ := nodup_names_listings_iff _ _ bundle made
  have nodup := different.mpr (by rw [widths]; decide)
  obtain ⟨decoded, read, found⟩ := kept nodup
  obtain ⟨entries, _, there⟩ := found 0 index first
  rw [name] at there
  exact ⟨bundle, made, reads.trans names, nodup, decoded, entries, read, there⟩

/-- Called by a letter, the final table hides an index, and inputs find the classes of others. -/
theorem shared_name_misleads :
    ∃ bundle decoded,
      ofMap [1, 1, 1, 1, 1, 1, 2, 0] { partitions := 2, table := "ZZ_CMAP_Z" } = .ok bundle ∧
      ¬ (bundle.listings.map Listing.name).Nodup ∧
      Decoded.ofBundle bundle = .ok decoded ∧
      decoded.table? "ZZ_CMAP_Z" = some #[1, 1, 2, 0] ∧ decoded.get? 6 = some 1 := by
  have searched : Search.ofMap [1, 1, 1, 1, 1, 1, 2, 0] 2 .sixteen = .ok
      { trials := (candidates 2 3).map (Trial.run [1, 1, 1, 1, 1, 1, 2, 0] .sixteen)
        choice := ⟨[2, 1], 16⟩ } := by cbv
  let layout : Layout :=
    { widths := [2, 1]
      tables := [[0, 0, 0, 1], [1, 1, 2, 0]]
      stages := [Stage.pointing 4 1 1, Stage.final]
      width := .sixteen }
  have built : Layout.ofMap [1, 1, 1, 1, 1, 1, 2, 0] [2, 1] .sixteen = .ok layout := by cbv
  let misled : Formula :=
    .index "ZZ_CMAP_Z" (.or (.index "ZZ_CMAP_Z" (.shr (.input "ch") (.num 1)))
      (.and (.input "ch") (.mask 1)))
  have found : Formula.lookup "ZZ_CMAP_Z" "ch" .sixteen [2, 1] layout.stages = .ok misled := rfl
  obtain ⟨listings, written, clash⟩ : ∃ listings,
      Listing.ofLayout layout "ZZ_CMAP_Z" = .ok listings ∧
        ¬ (listings.map Listing.name).Nodup := ⟨_, rfl, by decide⟩
  have made := (ofMap_eq_ok_iff [1, 1, 1, 1, 1, 1, 2, 0]
    { partitions := 2, table := "ZZ_CMAP_Z" } _).mpr ⟨_, searched,
      (ofWidths_eq_ok_iff _ _ _ _ _ _).mpr ⟨layout, built,
        (ofLayout_eq_ok_iff _ _ _ _).mpr ⟨misled, listings, found, written, rfl⟩⟩⟩
  have read := Decoded.ofBundle_eq_ok
    { widths := [2, 1], stages := layout.stages, width := .sixteen, listings, formula := misled
      bytes := layout.totalBytes } layout "ZZ_CMAP_Z" (by decide) ⟨by decide, trivial⟩ written rfl
    rfl
  refine ⟨_, { tables := [("ZZ_CMAP_Z", #[1, 1, 2, 0]), ("ZZ_CMAP_Z", #[0, 0, 0, 2])]
               formula := misled }, made, clash, read, ?_, ?_⟩
  · decide
  · decide

end Bundle

end Multistage
