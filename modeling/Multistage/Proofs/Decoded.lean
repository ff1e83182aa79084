import Multistage.Proofs.Bundle
import Multistage.Proofs.Lookup

/-!
A bundle read back answers with the map it was made of.
-/

namespace Multistage

namespace Layout

variable (map : Table) (coarsest : Nat) (finer : List Nat) (width : ClassWidth)

theorem lookup_shaped (table input : String) (formula : Formula) :
    let layout := shaped map coarsest finer width
    Formula.lookup table input layout.width layout.widths layout.stages = .ok formula ↔
      finer.length < mostStages ∧ ∃ stage stages,
        stagesBelow map width finer = stage :: stages ∧
        formula = Formula.descend table (.input input) width 0 none (coarsest, stage)
          (finer.zip stages) := by
  have length := length_stagesBelow map width finer
  simp only [stages_shaped]
  change Formula.lookup table input width (coarsest :: finer) _ = _ ↔ _
  cases staged : stagesBelow map width finer with
  | nil => simp [staged] at length
  | cons stage stages =>
      rw [staged, List.length_cons, Nat.add_right_cancel_iff] at length
      rw [Formula.lookup_eq_ok_iff _ _ _ _ _ _ _ length]
      simp

theorem exists_lookup_shaped (table input : String) (few : finer.length < mostStages) :
    let layout := shaped map coarsest finer width
    ∃ formula,
      Formula.lookup table input layout.width layout.widths layout.stages = .ok formula := by
  obtain ⟨stage, stages, staged⟩ :=
    List.exists_cons_of_length_eq_add_one (length_stagesBelow map width finer)
  exact ⟨_, (lookup_shaped map coarsest finer width table input _).mpr
    ⟨few, stage, stages, staged, rfl⟩⟩

theorem exists_decoded (table input : String) (bundle : Bundle)
    (distinct : Decoded.Distinct table (finer.length + 1))
    (made : Bundle.ofLayout (shaped map coarsest finer width) table input = .ok bundle) :
    ∃ decoded stage stages, Decoded.ofBundle bundle = .ok decoded ∧
      stagesBelow map width finer = stage :: stages ∧
      decoded.formula = Formula.descend table (.input input) width 0 none (coarsest, stage)
        (finer.zip stages) ∧
      Formula.Stocked decoded.fetch? table width 0 (below map finer :: storedTables map finer)
        (stage :: stages) := by
  obtain ⟨formula, listings, found, written, parts⟩ := (Bundle.ofLayout_eq_ok_iff _ _ _ _).mp made
  have nonempty : (shaped map coarsest finer width).tables ≠ [] := List.cons_ne_nil _ _
  have staged := staged_stagesBelow map width finer (below map finer)
  rw [← stages_shaped map coarsest] at staged
  have count : (shaped map coarsest finer width).tables.length = finer.length + 1 := by
    simp only [shaped, List.length_cons, length_storedTables]
  obtain ⟨decoded, read, same, tables⟩ := Decoded.exists_ofBundle bundle _ table nonempty staged
    (by rwa [parts]) (by rw [parts]) (by rw [parts]) (by rwa [count])
  obtain ⟨_, stage, stages, above, descends⟩ := (lookup_shaped _ _ _ _ _ _ _).mp found
  refine ⟨decoded, stage, stages, read, above, by rw [same, parts, descends], ?_⟩
  intro name entries member place
  rw [← above, ← stages_shaped map coarsest] at member
  simp only [Decoded.fetch?, tables name entries member, bind, Option.bind]

theorem get?_shaped (table input : String) (bundle : Bundle) (short : map.length < 2 ^ 32)
    (fits : Fits map coarsest finer width)
    (distinct : Decoded.Distinct table (finer.length + 1))
    (made : Bundle.ofLayout (shaped map coarsest finer width) table input = .ok bundle) :
    ∃ decoded, Decoded.ofBundle bundle = .ok decoded ∧
      ∀ value (inside : value < map.length), decoded.get? value = some map[value] := by
  obtain ⟨decoded, stage, stages, read, above, descends, stocked⟩ :=
    exists_decoded map coarsest finer width table input bundle distinct made
  refine ⟨decoded, read, ?_⟩
  intro value inside
  obtain ⟨_, _, _, written, _⟩ := (Bundle.ofLayout_eq_ok_iff _ _ _ _).mp made
  obtain ⟨_, _, last, _, lastWritten, _⟩ :=
    (Listing.ofLayout_eq_ok_iff _ _ _ (List.cons_ne_nil _ _)).mp written
  have classes := ((Listing.ofClasses_eq_ok_iff _ _ _ _).mp lastWritten).1
  have near : finer.sum + unitBits width finer < 32 := by
    have bound := Formula.sum_lt value map finer fits.aligned short inside
    cases finer with
    | nil => cases width <;> decide
    | cons next finer => exact bound
  rw [Decoded.get?, descends]
  exact Formula.eval?_descend decoded.fetch? value map width coarsest 0 finer (below map finer)
    table (.input input) none _ stage stages fits.aligned short inside fits.wholeUnits rfl
    (fun _ member => member) classes above stocked
    (Formula.Reaches.start decoded.fetch? value map width finer _ _ rfl near)

end Layout

theorem Bundle.exists_ofBundle_of_widths (map : Table) (widths : List Nat) (width : ClassWidth)
    (table input : String) (bundle : Bundle)
    (made : ofWidths map widths width table input = .ok bundle) :
    ∃ decoded, Decoded.ofBundle bundle = .ok decoded := by
  obtain ⟨layout, built, ofLayout⟩ := (ofWidths_eq_ok_iff _ _ _ _ _ _).mp made
  obtain ⟨coarsest, finer, rfl, _, rfl⟩ := (Layout.ofMap_eq_ok_iff _ _ _ _).mp built
  obtain ⟨formula, listings, _, written, rfl⟩ := (ofLayout_eq_ok_iff _ _ _ _).mp ofLayout
  have staged := Layout.staged_stagesBelow map width finer (Layout.below map finer)
  rw [← Layout.stages_shaped map coarsest] at staged
  exact ⟨_, Decoded.ofBundle_eq_ok _ _ table (List.cons_ne_nil _ _) staged written rfl rfl⟩

namespace Decoded

/-- Whatever widths lead to a layout, its formula and tables can be made and read back, and every
input finds its class. So does every input of a map whose widths a search chose. -/
theorem get?_ofMap :
    (∀ (map : Table) (widths : List Nat) (width : ClassWidth) (table input : String)
        (layout : Layout),
      Layout.ofMap map widths width = .ok layout → map.length < 2 ^ 32 →
      widths.length ≤ mostStages → (∀ value ∈ map, value ≤ width.max) →
      (∀ stage < widths.length - 1, table ≠ indexName stage) →
      ∃ formula listings bundle decoded,
        Formula.lookup table input width widths layout.stages = .ok formula ∧
        Listing.ofLayout layout table = .ok listings ∧
        Bundle.ofWidths map widths width table input = .ok bundle ∧
        bundle.formula = formula ∧ bundle.listings = listings ∧
        ofBundle bundle = .ok decoded ∧
        ∀ value (inside : value < map.length), decoded.get? value = some map[value]) ∧
      ∀ (classes : List UInt16) (settings : Settings) (bundle : Bundle),
        Bundle.ofMap classes settings = .ok bundle → classes.length < 2 ^ 32 →
        (∀ stage < bundle.widths.length - 1, settings.table ≠ indexName stage) →
        ∃ decoded, ofBundle bundle = .ok decoded ∧
          ∀ value (inside : value < classes.length),
            decoded.get? value = some classes[value].toNat := by
  constructor
  · intro map widths width table input layout built short few classes distinct
    obtain ⟨coarsest, finer, rfl, fits, rfl⟩ := (Layout.ofMap_eq_ok_iff _ _ _ _).mp built
    obtain ⟨listings, written⟩ :=
      Layout.exists_ofLayout map coarsest finer width table short fits few classes
    obtain ⟨stage, stages, staged⟩ := List.exists_cons_of_length_eq_add_one
      (Layout.length_stagesBelow map width finer)
    have found := (Layout.lookup_shaped map coarsest finer width table input _).mpr
      ⟨few, stage, stages, staged, rfl⟩
    have made := (Bundle.ofLayout_eq_ok_iff _ table input _).mpr
      ⟨_, listings, found, written, rfl⟩
    obtain ⟨decoded, read, get⟩ := Layout.get?_shaped map coarsest finer width table input _ short
      fits distinct made
    exact ⟨_, listings, _, decoded, found, written,
      (Bundle.ofWidths_eq_ok_iff _ _ _ _ _ _).mpr ⟨_, built, made⟩, rfl, rfl, read, get⟩
  · intro classes settings bundle made short distinct
    obtain ⟨search, _, ofWidths⟩ := (Bundle.ofMap_eq_ok_iff _ _ _).mp made
    obtain ⟨layout, built, ofLayout⟩ := (Bundle.ofWidths_eq_ok_iff _ _ _ _ _ _).mp ofWidths
    obtain ⟨coarsest, finer, widths, fits, rfl⟩ := (Layout.ofMap_eq_ok_iff _ _ _ _).mp built
    have ends : bundle.widths = coarsest :: finer := by
      obtain ⟨_, _, _, _, rfl⟩ := (Bundle.ofLayout_eq_ok_iff _ _ _ _).mp ofLayout
      rfl
    rw [ends] at distinct
    obtain ⟨decoded, read, get⟩ := Layout.get?_shaped _ coarsest finer _ settings.table
      settings.input bundle (by rwa [List.length_map]) fits distinct ofLayout
    refine ⟨decoded, read, ?_⟩
    intro value inside
    rw [get value (by rwa [List.length_map]), List.getElem_map]

theorem get?_ofMap_two_blocks :
    (∃ bundle decoded,
      Bundle.ofWidths [0, 1, 2, 3, 4, 5, 6, 7, 0, 1, 2, 3, 4, 5, 6, 9] [1, 3] .four "T" "ch" =
        .ok bundle ∧ ofBundle bundle = .ok decoded ∧ decoded.get? 15 = some 9) ∧
      ∃ bundle decoded,
        Bundle.ofMap [7, 7, 7, 7, 7, 7, 8, 9] { partitions := 2, table := "T" } = .ok bundle ∧
        ofBundle bundle = .ok decoded ∧ decoded.get? 6 = some 8 := by
  have built : Layout.ofMap [0, 1, 2, 3, 4, 5, 6, 7, 0, 1, 2, 3, 4, 5, 6, 9] [1, 3] .four = .ok
      { widths := [1, 3]
        tables := [[0, 1], [0, 1, 2, 3, 4, 5, 6, 7, 0, 1, 2, 3, 4, 5, 6, 9]]
        stages := [Stage.pointing 2 0 3, Stage.final]
        width := .four } := by cbv
  have searched : Search.ofMap [7, 7, 7, 7, 7, 7, 8, 9] 2 .sixteen = .ok
      { trials := (candidates 2 3).map (Trial.run [7, 7, 7, 7, 7, 7, 8, 9] .sixteen)
        choice := ⟨[2, 1], 16⟩ } := by cbv
  have chosen : Layout.ofMap [7, 7, 7, 7, 7, 7, 8, 9] [2, 1] .sixteen = .ok
      { widths := [2, 1]
        tables := [[0, 0, 0, 1], [7, 7, 8, 9]]
        stages := [Stage.pointing 4 1 1, Stage.final]
        width := .sixteen } := by cbv
  have made : ∃ bundle, Bundle.ofMap [7, 7, 7, 7, 7, 7, 8, 9] { partitions := 2, table := "T" } =
      .ok bundle ∧ bundle.widths = [2, 1] := by
    refine ⟨_, (Bundle.ofMap_eq_ok_iff _ _ _).mpr ⟨_, searched,
      (Bundle.ofWidths_eq_ok_iff _ _ _ _ _ _).mpr ⟨_, chosen,
        (Bundle.ofLayout_eq_ok_iff _ _ _ _).mpr ⟨_, _, rfl, rfl, rfl⟩⟩⟩, rfl⟩
  obtain ⟨given, search⟩ := get?_ofMap
  constructor
  · obtain ⟨_, _, bundle, decoded, _, _, made, _, _, read, get⟩ :=
      given _ _ _ "T" "ch" _ built (by decide) (by decide) (by decide) (by decide)
    exact ⟨bundle, decoded, made, read, get 15 (by decide)⟩
  · obtain ⟨bundle, made, widths⟩ := made
    obtain ⟨decoded, read, get⟩ := search _ _ bundle made (by decide) (by rw [widths]; decide)
    exact ⟨bundle, decoded, made, read, get 6 (by decide)⟩

end Decoded

end Multistage
