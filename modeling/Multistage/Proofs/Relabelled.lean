import Multistage.Proofs.Bundle
import Multistage.Proofs.Feasible
import Multistage.Proofs.ReadBack
import Multistage.Proofs.Search

/-!
Relabelling classes so that different ones stay different: the blocks of the map are equal or
different as before, so nothing changes but the classes in the final table.
-/

namespace Multistage

variable {map : Table} {relabel : Nat → Nat}

def Distinguishes (relabel : Nat → Nat) (map : Table) : Prop :=
  ∀ first ∈ map, ∀ second ∈ map, relabel first = relabel second → first = second

namespace Table

theorem ofList_segments_map (distinguishes : Distinguishes relabel map) (size : Nat) :
    (Numbering.ofList (segments size (map.map relabel))).index =
        (Numbering.ofList (segments size map)).index ∧
      (Numbering.ofList (segments size (map.map relabel))).distinct =
        (Numbering.ofList (segments size map)).distinct.map (List.map relabel) := by
  rw [segments_map]
  apply Numbering.ofList_map
  intro left leftMember right rightMember same
  refine eq_of_map_eq relabel left right ?_ same
  intro first inLeft second inRight
  exact distinguishes first (mem_of_mem_segments _ _ _ _ leftMember inLeft) second
    (mem_of_mem_segments _ _ _ _ rightMember inRight)

theorem condensed_map (distinguishes : Distinguishes relabel map) (blockBits : Nat) :
    condensed (map.map relabel) blockBits =
      { index := (map.condensed blockBits).index
        stored := (map.condensed blockBits).stored.map relabel } := by
  obtain ⟨index, distinct⟩ := ofList_segments_map distinguishes (2 ^ blockBits)
  simp only [condensed, index, distinct, List.map_flatten]

theorem variety_map (distinguishes : Distinguishes relabel map) (blockBits : Nat) :
    variety (map.map relabel) blockBits = map.variety blockBits := by
  rw [variety, variety, ← Numbering.length_distinct, ← Numbering.length_distinct,
    (ofList_segments_map distinguishes _).2, List.length_map]

end Table

namespace Layout

theorem below_map (distinguishes : Distinguishes relabel map) (next : Nat) (finer : List Nat) :
    below (map.map relabel) (next :: finer) = below map (next :: finer) := by
  induction finer generalizing next with
  | nil => simp only [below, Table.condensed_map distinguishes, Deduplicated.recorded]
  | cons after finer ih =>
      exact congrArg (fun table => (Table.condensed table next).recorded.index) (ih after)

theorem variety_below_map (distinguishes : Distinguishes relabel map) (next : Nat)
    (finer : List Nat) :
    (below (map.map relabel) finer).variety next = (below map finer).variety next := by
  cases finer with
  | nil => exact Table.variety_map distinguishes next
  | cons after finer => rw [below_map distinguishes]

theorem storedTables_map (distinguishes : Distinguishes relabel map) (next : Nat)
    (finer : List Nat) :
    ∃ indices classes, storedTables map (next :: finer) = indices ++ [classes] ∧
      storedTables (map.map relabel) (next :: finer) = indices ++ [classes.map relabel] := by
  induction finer generalizing next with
  | nil =>
      refine ⟨[], (map.condensed next).stored, rfl, ?_⟩
      simp only [storedTables, below, Table.condensed_map distinguishes, List.nil_append]
  | cons after finer ih =>
      obtain ⟨indices, classes, original, relabelled⟩ := ih after
      refine ⟨((below map (after :: finer)).condensed next).stored :: indices, classes, ?_, ?_⟩
      · rw [storedTables, original, List.cons_append]
      · rw [storedTables, relabelled, below_map distinguishes, List.cons_append]

theorem stagesBelow_map (distinguishes : Distinguishes relabel map) (width : ClassWidth)
    (finer : List Nat) :
    stagesBelow (map.map relabel) width finer = stagesBelow map width finer := by
  induction finer with
  | nil => rfl
  | cons next finer ih =>
      rw [stagesBelow, stagesBelow, ih, stageAbove, stageAbove, variety_below_map distinguishes]

theorem shaped_map (distinguishes : Distinguishes relabel map) (coarsest : Nat)
    (finer : List Nat) (width : ClassWidth) :
    ∃ indices classes,
      (shaped map coarsest finer width).tables = indices ++ [classes] ∧
      shaped (map.map relabel) coarsest finer width =
        { shaped map coarsest finer width with
          tables := indices ++ [classes.map relabel] } := by
  have stages : (shaped (map.map relabel) coarsest finer width).stages =
      (shaped map coarsest finer width).stages := by
    rw [shaped, shaped, stagesOver_storedTables, stagesOver_storedTables,
      stagesBelow_map distinguishes]
  cases finer with
  | nil => exact ⟨[], map, rfl, rfl⟩
  | cons next finer =>
      obtain ⟨indices, classes, original, relabelled⟩ := storedTables_map distinguishes next finer
      refine ⟨below map (next :: finer) :: indices, classes, ?_, ?_⟩
      · simp only [shaped, original, List.cons_append]
      · simp only [shaped] at stages ⊢
        rw [stages, relabelled, below_map distinguishes, List.cons_append]

theorem ofMap_map (distinguishes : Distinguishes relabel map) (widths : List Nat)
    (width : ClassWidth) (layout : Layout) (built : ofMap map widths width = .ok layout) :
    ∃ indices classes, layout.tables = indices ++ [classes] ∧
      ofMap (map.map relabel) widths width =
        .ok { layout with tables := indices ++ [classes.map relabel] } := by
  obtain ⟨coarsest, finer, rfl, fits, rfl⟩ := (ofMap_eq_ok_iff _ _ _ _).mp built
  obtain ⟨indices, classes, tables, relabelled⟩ := shaped_map distinguishes coarsest finer width
  refine ⟨indices, classes, tables, (ofMap_eq_ok_iff _ _ _ _).mpr
    ⟨coarsest, finer, rfl, fits.congr (List.length_map relabel).symm, relabelled.symm⟩⟩

theorem totalBytes_relabelled (layout : Layout) (indices : List Table) (classes : Table)
    (tables : layout.tables = indices ++ [classes]) :
    totalBytes { layout with tables := indices ++ [classes.map relabel] } = layout.totalBytes := by
  simp [totalBytes, tables, finalBytes]

end Layout

theorem Trial.run_map (distinguishes : Distinguishes relabel map) (width : ClassWidth)
    (widths : List Nat) : run (map.map relabel) width widths = run map width widths := by
  simp only [run]
  cases built : Layout.ofMap map widths width with
  | error fault =>
      rw [(Layout.ofMap_eq_error_congr map _ (List.length_map relabel).symm _ _ _).mp built]
  | ok layout =>
      obtain ⟨indices, classes, tables, relabelled⟩ :=
        Layout.ofMap_map distinguishes widths width layout built
      rw [relabelled]
      simp only [Except.map, Layout.totalBytes_relabelled layout indices classes tables]

theorem Search.ofMap_map (distinguishes : Distinguishes relabel map) (partitions : Nat)
    (width : ClassWidth) : ofMap (map.map relabel) partitions width = ofMap map partitions width := by
  have trials : Trial.run (map.map relabel) width = Trial.run map width :=
    funext fun widths => Trial.run_map distinguishes width widths
  rw [ofMap, ofMap, trials, List.length_map, List.isEmpty_map]

namespace Bundle

theorem listings_relabelled (layout : Layout) (indices : List Table) (classes labels : Table)
    (tables : layout.tables = indices ++ [classes]) (table : String)
    (written rewritten : List Listing) (listed : Listing.ofLayout layout table = .ok written)
    (relisted : Listing.ofLayout { layout with tables := indices ++ [labels] } table =
      .ok rewritten) :
    ∃ listings first second, written = listings ++ [first] ∧
      rewritten = listings ++ [second] := by
  obtain ⟨_, listings, first, indexed, _, rfl⟩ :=
    (Listing.ofLayout_eq_ok_iff layout table written (by simp [tables])).mp listed
  obtain ⟨_, others, second, reindexed, _, rfl⟩ :=
    (Listing.ofLayout_eq_ok_iff _ table rewritten (by simp)).mp relisted
  rw [tables, List.dropLast_concat] at indexed
  rw [List.dropLast_concat, indexed, Except.ok.injEq] at reindexed
  exact ⟨listings, first, second, rfl, by rw [reindexed]⟩

theorem ofMap_map (classes labels : List UInt16) (settings : Settings) (bundle other : Bundle)
    (distinguishes : Distinguishes relabel (classes.map UInt16.toNat))
    (relabelled : labels.map UInt16.toNat = (classes.map UInt16.toNat).map relabel)
    (made : ofMap classes settings = .ok bundle) (remade : ofMap labels settings = .ok other) :
    other.widths = bundle.widths ∧ other.stages = bundle.stages ∧ other.bytes = bundle.bytes ∧
      other.formula = bundle.formula ∧
      ∃ listings first second, bundle.listings = listings ++ [first] ∧
        other.listings = listings ++ [second] := by
  obtain ⟨search, found, ofWidths⟩ := (ofMap_eq_ok_iff _ _ _).mp made
  obtain ⟨again, refound, reWidths⟩ := (ofMap_eq_ok_iff _ _ _).mp remade
  rw [relabelled, Search.ofMap_map distinguishes, found, Except.ok.injEq] at refound
  obtain ⟨layout, built, ofLayout⟩ := (ofWidths_eq_ok_iff _ _ _ _ _ _).mp ofWidths
  obtain ⟨relayout, rebuilt, reLayout⟩ := (ofWidths_eq_ok_iff _ _ _ _ _ _).mp reWidths
  obtain ⟨indices, finest, tables, same⟩ := Layout.ofMap_map distinguishes _ _ layout built
  rw [relabelled, ← refound, same, Except.ok.injEq] at rebuilt
  subst rebuilt
  obtain ⟨formula, written, looked, listed, rfl⟩ := (ofLayout_eq_ok_iff _ _ _ _).mp ofLayout
  obtain ⟨reformula, rewritten, relooked, relisted, rfl⟩ := (ofLayout_eq_ok_iff _ _ _ _).mp reLayout
  have formulas : formula = reformula := by simpa [looked] using relooked
  exact ⟨rfl, rfl, Layout.totalBytes_relabelled layout indices finest tables, formulas.symm,
    listings_relabelled layout indices finest _ tables _ written rewritten listed relisted⟩

end Bundle

/-- Labels that tell the classes of a map apart change neither which widths are possible nor
what is wrong with the others, nor the search. Of the tables they change only the final one. -/
theorem ofMap_relabelled (map : Table) (relabel : Nat → Nat)
    (distinguishes : Distinguishes relabel map) :
    (∀ (widths : List Nat) (width : ClassWidth),
      (∀ fault, Layout.ofMap map widths width = .error fault →
        Layout.ofMap (map.map relabel) widths width = .error fault) ∧
      ∀ layout, Layout.ofMap map widths width = .ok layout →
        ∃ indices classes, layout.tables = indices ++ [classes] ∧
          Layout.ofMap (map.map relabel) widths width =
            .ok { layout with tables := indices ++ [classes.map relabel] }) ∧
    (∀ (partitions : Nat) (width : ClassWidth),
      Search.ofMap (map.map relabel) partitions width = Search.ofMap map partitions width) ∧
    ∀ (classes labels : List UInt16) (settings : Settings) (bundle other : Bundle),
      classes.map UInt16.toNat = map → labels.map UInt16.toNat = map.map relabel →
      Bundle.ofMap classes settings = .ok bundle → Bundle.ofMap labels settings = .ok other →
      other.widths = bundle.widths ∧ other.stages = bundle.stages ∧
        other.bytes = bundle.bytes ∧ other.formula = bundle.formula ∧
        ∃ listings first second, bundle.listings = listings ++ [first] ∧
          other.listings = listings ++ [second] := by
  refine ⟨fun widths width => ⟨?_, Layout.ofMap_map distinguishes widths width⟩,
    Search.ofMap_map distinguishes, ?_⟩
  · intro fault refused
    exact (Layout.ofMap_eq_error_congr map _ (List.length_map relabel).symm _ _ _).mp refused
  · rintro classes labels settings bundle other rfl relabelled made remade
    exact Bundle.ofMap_map classes labels settings bundle other distinguishes relabelled made remade

theorem ofMap_relabelled_reversed :
    Layout.ofMap ([7, 7, 7, 7, 7, 7, 8, 9].map (9 - ·)) [2, 2] .sixteen =
        .error (.widthTotal 4 3) ∧
      (∃ indices classes, [[0, 0, 0, 1], [7, 7, 8, 9]] = indices ++ [classes] ∧
        Layout.ofMap ([7, 7, 7, 7, 7, 7, 8, 9].map (9 - ·)) [2, 1] .sixteen = .ok
          { widths := [2, 1], tables := indices ++ [classes.map (9 - ·)],
            stages := [Stage.pointing 4 1 1, Stage.final], width := .sixteen }) ∧
      Search.ofMap ([7, 7, 7, 7, 7, 7, 8, 9].map (9 - ·)) 2 .sixteen =
        Search.ofMap [7, 7, 7, 7, 7, 7, 8, 9] 2 .sixteen ∧
      ∃ bundle other, Bundle.ofMap [7, 7, 7, 7, 7, 7, 8, 9] { partitions := 2 } = .ok bundle ∧
        Bundle.ofMap [2, 2, 2, 2, 2, 2, 1, 0] { partitions := 2 } = .ok other ∧
        other.widths = bundle.widths ∧ other.formula = bundle.formula := by
  have distinguishes : Distinguishes (9 - ·) [7, 7, 7, 7, 7, 7, 8, 9] := by
    unfold Distinguishes
    decide
  have refused : Layout.ofMap [7, 7, 7, 7, 7, 7, 8, 9] [2, 2] .sixteen =
      .error (.widthTotal 4 3) := by cbv
  have built : Layout.ofMap [7, 7, 7, 7, 7, 7, 8, 9] [2, 1] .sixteen = .ok
      { widths := [2, 1], tables := [[0, 0, 0, 1], [7, 7, 8, 9]]
        stages := [Stage.pointing 4 1 1, Stage.final], width := .sixteen } := by cbv
  have rebuilt : Layout.ofMap [2, 2, 2, 2, 2, 2, 1, 0] [2, 1] .sixteen = .ok
      { widths := [2, 1], tables := [[0, 0, 0, 1], [2, 2, 1, 0]]
        stages := [Stage.pointing 4 1 1, Stage.final], width := .sixteen } := by cbv
  have searched : Search.ofMap [7, 7, 7, 7, 7, 7, 8, 9] 2 .sixteen = .ok
      { trials := (candidates 2 3).map (Trial.run [7, 7, 7, 7, 7, 7, 8, 9] .sixteen)
        choice := ⟨[2, 1], 16⟩ } := by cbv
  obtain ⟨layouts, searches, bundles⟩ := ofMap_relabelled _ (9 - ·) distinguishes
  have researched := (searches 2 .sixteen).trans searched
  have made : ∃ bundle,
      Bundle.ofMap [7, 7, 7, 7, 7, 7, 8, 9] { partitions := 2 } = .ok bundle :=
    ⟨_, (Bundle.ofMap_eq_ok_iff _ _ _).mpr ⟨_, searched,
      (Bundle.ofWidths_eq_ok_iff _ _ _ _ _ _).mpr ⟨_, built,
        (Bundle.ofLayout_eq_ok_iff _ _ _ _).mpr ⟨_, _, rfl, rfl, rfl⟩⟩⟩⟩
  have remade : ∃ other,
      Bundle.ofMap [2, 2, 2, 2, 2, 2, 1, 0] { partitions := 2 } = .ok other :=
    ⟨_, (Bundle.ofMap_eq_ok_iff _ _ _).mpr ⟨_, researched,
      (Bundle.ofWidths_eq_ok_iff _ _ _ _ _ _).mpr ⟨_, rebuilt,
        (Bundle.ofLayout_eq_ok_iff _ _ _ _).mpr ⟨_, _, rfl, rfl, rfl⟩⟩⟩⟩
  obtain ⟨bundle, bundleMade⟩ := made
  obtain ⟨other, otherMade⟩ := remade
  obtain ⟨widths, _, _, formulas, _⟩ :=
    bundles _ _ _ bundle other (by decide) (by decide) bundleMade otherMade
  exact ⟨(layouts [2, 2] .sixteen).1 _ refused, (layouts [2, 1] .sixteen).2 _ built, searches 2 .sixteen,
    bundle, other, bundleMade, otherMade, widths, formulas⟩

end Multistage
