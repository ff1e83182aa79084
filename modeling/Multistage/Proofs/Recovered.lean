import Multistage.Proofs.ReadBack

/-!
What is read back from the written tables of a layout, whether it was made of a map or by hand:
writer and reader choose between one and two values for an entry each on their own, and agree.
-/

namespace Multistage

namespace ClassWidth

/-- The words hold the classes, each at its place, and nothing past the last one. -/
structure Packs (width : ClassWidth) (classes : Table) (words : Array Nat) : Prop where
  count : words.size = (classes.length + width.perUnit - 1) / width.perUnit
  holds : ∀ place value, classes[place]? = some value →
    ∃ word, words[place / width.perUnit]? = some word ∧
      (word >>> (place % width.perUnit * width.bits)) &&& (2 ^ width.bits - 1) = value
  blank : ∀ unit word bit, words[unit]? = some word →
    classes.length * width.bits ≤ 32 * unit + bit → word.testBit bit = false

theorem packs_unitWords (width : ClassWidth) (classes : Table) (packed : width.isPacked = true)
    (fits : ∀ value ∈ classes, value ≤ width.max) :
    width.Packs classes (Listing.unitWords width classes).toArray := by
  constructor
  · rw [List.size_toArray, Listing.length_unitWords]
  · intro place value found
    obtain ⟨word, wordFound, held⟩ :=
      Listing.exists_unitWord width classes packed fits place value found
    refine ⟨word, by rwa [List.getElem?_toArray], ?_⟩
    rw [Nat.and_two_pow_sub_one_eq_mod, held]
  · intro unit word bit found past
    rw [List.getElem?_toArray] at found
    exact Listing.testBit_unitWords width classes fits unit word bit found (by omega)

end ClassWidth

namespace Listing

theorem register_eq (stage : Stage) (entry : Nat) (short : entry < 2 ^ 32)
    (near : stage.nextBits ≤ 32) :
    register stage entry =
      if stage.preshifted then entry * 2 ^ stage.nextBits else entry := by
  rw [register_eq_moved stage entry (stage.moved_lt entry short near), Stage.moved,
    Stage.storedShift]
  split
  · rfl
  · exact Nat.mul_one entry

end Listing

namespace Decoded

open Listing

theorem staged_of_readable (tables : List Table) (stages : List Stage) (nonempty : tables ≠ [])
    (deep : tables.length - 1 ≤ stages.length)
    (readable : ∀ stage ∈ stages.take (tables.length - 1), Readable stage) :
    Staged tables stages := by
  induction tables generalizing stages with
  | nil => contradiction
  | cons entries tables ih =>
      cases tables with
      | nil => trivial
      | cons next tables =>
          cases stages with
          | nil => simp at deep
          | cons stage stages =>
              refine ⟨readable stage (by simp), ih stages (List.cons_ne_nil _ _) ?_ ?_⟩
              · simpa using deep
              · intro later member
                exact readable later (by simpa using Or.inr member)

theorem mem_contents_index (table : String) (width : ClassWidth) (depth place : Nat)
    (tables : List Table) (stages : List Stage) (entries : Table) (stage : Stage)
    (more : place + 1 < tables.length) (found : tables[place]? = some entries)
    (staged : stages[place]? = some stage) :
    (indexName (depth + place), (entries.map (register stage)).toArray) ∈
      contents table width depth tables stages := by
  induction place generalizing depth tables stages with
  | zero =>
      match tables, stages with
      | first :: next :: tables, top :: stages =>
          obtain rfl : first = entries := by simpa using found
          obtain rfl : top = stage := by simpa using staged
          exact List.mem_cons_self
  | succ place ih =>
      match tables, stages with
      | first :: next :: tables, top :: stages =>
          have later := ih (depth + 1) (next :: tables) stages (by simpa using more)
            (by simpa using found) (by simpa using staged)
          rw [contents, Nat.add_comm place 1, ← Nat.add_assoc]
          exact List.mem_cons_of_mem _ later

theorem mem_contents_last (table : String) (width : ClassWidth) (depth : Nat)
    (tables : List Table) (stages : List Stage) (nonempty : tables ≠ [])
    (staged : Staged tables stages) :
    (table, (storedClasses width (tables.getLast nonempty)).toArray) ∈
      contents table width depth tables stages := by
  induction tables generalizing depth stages with
  | nil => contradiction
  | cons entries tables ih =>
      match tables, stages, staged with
      | [], _, _ => simp [contents]
      | next :: tables, stage :: stages, staged =>
          rw [contents, List.getLast_cons_cons]
          exact List.mem_cons_of_mem _ (ih (depth + 1) stages (List.cons_ne_nil _ _) staged.2)

/-- The tables of any layout that can be written are read back: an index table with its entries
moved to where its stage wants them, and the final table as its classes or as words packed with
them. -/
theorem table?_ofBundle (layout : Layout) (table : String) (bundle : Bundle) (classes : Table)
    (finest : layout.tables.getLast? = some classes)
    (deep : layout.tables.length - 1 ≤ layout.stages.length)
    (usable : ∀ stage ∈ layout.stages.take (layout.tables.length - 1),
      Readable stage ∧ stage.nextBits ≤ 32)
    (short : ∀ entries ∈ layout.tables, ∀ entry ∈ entries, entry < 2 ^ 32)
    (distinct : ∀ stage < layout.tables.length - 1, table ≠ indexName stage)
    (written : ofLayout layout table = .ok bundle.listings)
    (stages : bundle.stages = layout.stages) (width : bundle.width = layout.width) :
    ∃ decoded, ofBundle bundle = .ok decoded ∧
      (∀ place entries stage, place + 1 < layout.tables.length →
        layout.tables[place]? = some entries → layout.stages[place]? = some stage →
        decoded.table? (indexName place) = some (entries.map fun entry =>
          if stage.preshifted then entry * 2 ^ stage.nextBits else entry).toArray) ∧
      (layout.width.isPacked = false → decoded.table? table = some classes.toArray) ∧
      (layout.width.isPacked = true →
        ∃ words, decoded.table? table = some words ∧ layout.width.Packs classes words) := by
  have nonempty : layout.tables ≠ [] := by
    intro none
    simp [none] at finest
  obtain rfl : layout.tables.getLast nonempty = classes := by
    simpa [List.getLast?_eq_some_getLast nonempty] using finest
  have staged := staged_of_readable layout.tables layout.stages nonempty deep
    fun stage member => (usable stage member).1
  obtain ⟨decoded, read, _, tables⟩ := exists_ofBundle bundle layout table nonempty staged written
    stages width distinct
  have final := tables _ _
    (mem_contents_last table layout.width 0 layout.tables layout.stages nonempty staged)
  refine ⟨decoded, read, ?_, ?_, ?_⟩
  · intro place entries stage more found staging
    have index := tables _ _ (mem_contents_index table layout.width 0 place layout.tables
      layout.stages entries stage more found staging)
    have used : stage ∈ layout.stages.take (layout.tables.length - 1) := by
      rw [List.mem_take_iff_getElem]
      obtain ⟨bound, same⟩ := List.getElem?_eq_some_iff.mp staging
      exact ⟨place, by omega, same⟩
    have moved : entries.map (register stage) = entries.map fun entry =>
        if stage.preshifted then entry * 2 ^ stage.nextBits else entry := by
      apply List.map_congr_left
      intro entry member
      exact register_eq stage entry (short entries (List.mem_of_getElem? found) entry member)
        (usable stage used).2
    rwa [Nat.zero_add, moved] at index
  · intro unpacked
    rwa [storedClasses, unpacked, if_neg Bool.false_ne_true] at final
  · intro packed
    obtain ⟨_, _, last, _, lastWritten, _⟩ := (ofLayout_eq_ok_iff _ _ _ nonempty).mp written
    have fits := ((ofClasses_eq_ok_iff _ _ _ _).mp lastWritten).1
    rw [storedClasses, if_pos packed] at final
    exact ⟨_, final, ClassWidth.packs_unitWords layout.width _ packed fits⟩

theorem table?_ofBundle_by_hand :
    ∃ bundle decoded words, ofBundle bundle = .ok decoded ∧
      decoded.table? "ZZ_CMAP_Z" = some #[0, 1120000, 48] ∧
      decoded.table? "ZZ_CMAP_Y" = some #[2, 0, 1] ∧ decoded.table? "T" = some words ∧
      ClassWidth.two.Packs [1, 2, 3, 0, 3, 1, 1, 1, 1, 1, 1, 1, 1, 1, 1, 1, 2] words := by
  let layout : Layout :=
    { widths := []
      tables := [[0, 70000, 3], [2, 0, 1], [1, 2, 3, 0, 3, 1, 1, 1, 1, 1, 1, 1, 1, 1, 1, 1, 2]]
      stages := [{ entryBytes := 4, preshifted := true, nextBits := 4 },
        { entryBytes := 1, nextBits := 32 }, {}]
      width := .two }
  obtain ⟨listings, written⟩ : ∃ listings, ofLayout layout "T" = .ok listings := ⟨_, rfl⟩
  obtain ⟨decoded, read, indices, _, final⟩ := table?_ofBundle layout "T"
    { widths := [], stages := layout.stages, width := .two, listings, formula := .num 0, bytes := 0 }
    _ rfl (by decide) (by decide) (by decide) (by decide) written rfl rfl
  obtain ⟨words, found, packs⟩ := final rfl
  exact ⟨_, decoded, words, read, indices 0 _ _ (by decide) rfl rfl,
    indices 1 _ _ (by decide) rfl rfl, found, packs⟩

end Decoded

end Multistage
