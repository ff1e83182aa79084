import Multistage.Proofs.Written

/-!
Which tables are refused when a layout is written: those with a number too wide for its place, of
which the first is told. An entry is looked at in a register, so one whose upper bits are moved out
of that register is not noticed.
-/

namespace Multistage

structure Slots where
  name : String
  bits : Nat
  numbers : List Nat

namespace Slots

def Fits (slots : Slots) : Prop :=
  ∀ number ∈ slots.numbers, number < 2 ^ slots.bits

instance (slots : Slots) : Decidable slots.Fits :=
  inferInstanceAs (Decidable (∀ number ∈ _, _))

def oversized (slots : Slots) : List Fault :=
  (slots.numbers.filter (2 ^ slots.bits ≤ ·)).map fun number =>
    .entryTooBig slots.name number slots.bits

theorem oversized_eq_nil_iff (slots : Slots) : slots.oversized = [] ↔ slots.Fits := by
  simp [oversized, Fits]

def ofIndices (move : Stage → Nat → Nat) (depth : Nat) (tables : List Table)
    (stages : List Stage) : List Slots :=
  ((tables.zip stages).zipIdx depth).map fun ((entries, stage), place) =>
    { name := indexName place, bits := 8 * stage.entryBytes, numbers := entries.map (move stage) }

def ofLayout (move : Stage → Nat → Nat) (layout : Layout) (table : String) : List Slots :=
  ofIndices move 0 layout.tables.dropLast layout.stages ++
    layout.tables.getLast?.toList.map fun classes =>
      { name := table, bits := layout.width.bits, numbers := classes }

end Slots

theorem ClassWidth.max_lt_iff (width : ClassWidth) (value : Nat) :
    width.max < value ↔ 2 ^ width.bits ≤ value := by
  cases width <;> simp only [max, bits] <;> omega

namespace Listing

theorem failsWith_ofIndex (name : String) (entries : Table) (stage : Stage) :
    FailsWith (Slots.oversized ⟨name, 8 * stage.entryBytes, entries.map (register stage)⟩)
      (ofIndex name entries stage) := by
  intro fault
  have wide (number : Nat) : (number >>> (8 * stage.entryBytes) != 0) =
      decide (2 ^ (8 * stage.entryBytes) ≤ number) := by
    rw [Bool.eq_iff_iff, bne_iff_ne, decide_eq_true_iff, Nat.shiftRight_eq_div_pow,
      Nat.div_ne_zero_iff]
    have positive := Nat.two_pow_pos (8 * stage.entryBytes)
    omega
  simp only [ofIndex, Slots.oversized, List.head?_map, List.head?_filter, wide]
  cases (entries.map (register stage)).find? fun number =>
      decide (2 ^ (8 * stage.entryBytes) ≤ number) with
  | some number => simp
  | none =>
      simp only [Option.map_none, reduceCtorEq, iff_false]
      split <;> simp

theorem failsWith_ofClasses (name : String) (classes : Table) (width : ClassWidth) :
    FailsWith (Slots.oversized ⟨name, width.bits, classes⟩) (ofClasses name classes width) := by
  intro fault
  rw [ofClasses_eq_error_iff]
  simp only [Slots.oversized, List.head?_map, List.head?_filter, ClassWidth.max_lt_iff,
    Option.map_eq_some_iff]
  exact exists_congr fun value => and_congr_right fun _ => eq_comm

theorem failsWith_ofIndices (depth : Nat) (tables : List Table) (stages : List Stage) :
    FailsWith ((Slots.ofIndices register depth tables stages).flatMap Slots.oversized)
      (ofIndices depth tables stages) := by
  fun_induction ofIndices depth tables stages with
  | case1 depth entries tables stage stages ih =>
      have later (listing : Listing) :=
        ih.bind fun listings _ => FailsWith.pure (listing :: listings)
      simp only [List.append_nil] at later
      exact (failsWith_ofIndex (indexName depth) entries stage).bind fun listing _ => later listing
  | case2 tables depth stages ended =>
      simpa [Slots.ofIndices, zip_eq_nil ended] using FailsWith.pure []

theorem failsWith_ofLayout (layout : Layout) (table : String)
    (few : layout.tables.length ≤ mostStages) :
    FailsWith ((Slots.ofLayout register layout table).flatMap Slots.oversized)
      (ofLayout layout table) := by
  rw [ofLayout, if_neg (Nat.not_lt.mpr few), Slots.ofLayout, List.flatMap_append]
  cases finest : layout.tables.getLast? with
  | none =>
      have none : layout.tables = [] := List.getLast?_eq_none_iff.mp finest
      rw [none]
      exact FailsWith.pure []
  | some classes =>
      have last (indices : List Listing) :=
        (failsWith_ofClasses table classes layout.width).bind fun last _ =>
          FailsWith.pure (indices ++ [last])
      simp only [Option.toList_some, List.map_cons, List.map_nil, List.flatMap_cons,
        List.flatMap_nil]
      exact (failsWith_ofIndices 0 layout.tables.dropLast layout.stages).bind
        fun indices _ => last indices

theorem getElem?_ofIndices (depth place : Nat) (tables : List Table) (stages : List Stage)
    (indices : List Listing) (entries : Table) (stage : Stage)
    (written : ofIndices depth tables stages = .ok indices) (found : tables[place]? = some entries)
    (staged : stages[place]? = some stage) :
    indices[place]? = some (spelling (indexName (depth + place)) (indexValues stage entries)) ∧
      ∀ entry ∈ entries, register stage entry < 2 ^ (8 * stage.entryBytes) := by
  obtain ⟨fits, rfl⟩ := (ofIndices_eq_ok_iff _ _ _ _).mp written
  have pair : (tables.zip stages)[place]? = some (entries, stage) :=
    List.getElem?_zip_eq_some.mpr ⟨found, staged⟩
  refine ⟨?_, fits _ (List.mem_of_getElem? pair)⟩
  rw [List.getElem?_map, List.getElem?_zipIdx, pair]
  rfl

theorem read_index (layout : Layout) (table : String) (listings : List Listing) (place : Nat)
    (entries : Table) (stage : Stage) (written : ofLayout layout table = .ok listings)
    (found : layout.tables.dropLast[place]? = some entries)
    (staged : layout.stages[place]? = some stage) (narrow : stage.entryBytes ≤ 4) :
    ∃ listing, listings[place]? = some listing ∧
      Decoded.read listing (16 < 8 * stage.entryBytes) =
        .ok (indexName place, (entries.map (register stage)).toArray) := by
  have nonempty : layout.tables ≠ [] := by
    rintro none
    simp [none] at found
  obtain ⟨_, indices, last, indicesWritten, _, rfl⟩ :=
    (ofLayout_eq_ok_iff layout table listings nonempty).mp written
  obtain ⟨there, fits⟩ :=
    getElem?_ofIndices 0 place _ _ indices entries stage indicesWritten found staged
  obtain ⟨bound, _⟩ := List.getElem?_eq_some_iff.mp there
  rw [Nat.zero_add] at there
  refine ⟨_, (List.getElem?_append_left bound).trans there, ?_⟩
  rw [Decoded.read_spelling, Decoded.entries_of_le_four stage entries narrow fits]

end Listing

namespace Layout

def Contained (layout : Layout) : Prop :=
  ∀ pair ∈ layout.tables.dropLast.zip layout.stages, ∀ entry ∈ pair.1,
    pair.2.moved entry < 2 ^ 64

instance (layout : Layout) : Decidable layout.Contained :=
  inferInstanceAs (Decidable (∀ pair ∈ _, _))

theorem contained_of_narrow (layout : Layout)
    (short : ∀ entries ∈ layout.tables.dropLast, ∀ entry ∈ entries, entry < 2 ^ 32)
    (near : ∀ stage ∈ layout.stages, stage.nextBits ≤ 32) : layout.Contained := by
  rintro ⟨entries, stage⟩ member entry present
  obtain ⟨table, staged⟩ := List.of_mem_zip member
  exact stage.moved_lt entry (short entries table entry present) (near stage staged)

theorem contained_of_ofMap (map : Table) (widths : List Nat) (width : ClassWidth)
    (layout : Layout) (short : map.length ≤ 2 ^ 64) (built : ofMap map widths width = .ok layout) :
    layout.Contained := by
  obtain ⟨coarsest, finer, rfl, fits, rfl⟩ := (ofMap_eq_ok_iff _ _ _ _).mp built
  intro pair member entry present
  rw [stages_shaped] at member
  obtain ⟨next, later, stage, units, inside⟩ := exists_stageAbove map width finer
    (below map finer) fits.wholeUnits (fun _ entry => entry) pair member
  rw [stage]
  exact Nat.lt_of_lt_of_le
    (moved_stageAbove_lt map width next entry later units (inside entry present)) short

theorem Contained.map_register {layout : Layout} (contained : layout.Contained) (entries : Table)
    (stage : Stage) (member : (entries, stage) ∈ layout.tables.dropLast.zip layout.stages) :
    entries.map (Listing.register stage) = entries.map stage.moved := by
  apply List.map_congr_left
  intro entry present
  exact Listing.register_eq_moved stage entry (contained _ member entry present)

theorem Contained.slots_eq {layout : Layout} (contained : layout.Contained) (table : String) :
    Slots.ofLayout Listing.register layout table = Slots.ofLayout Stage.moved layout table := by
  rw [Slots.ofLayout, Slots.ofLayout, Slots.ofIndices, Slots.ofIndices]
  congr 1
  apply List.map_congr_left
  rintro ⟨⟨entries, stage⟩, place⟩ member
  simp only [contained.map_register entries stage (List.fst_mem_of_mem_zipIdx member)]

/-- What a writer of tables does whose entries are moved by `move`: it refuses the first number
that does not fit its place, and writes the tables if there is none. -/
structure Checks (move : Stage → Nat → Nat) (layout : Layout) (table : String) : Prop where
  refused : ∀ fault, Listing.ofLayout layout table = .error fault ↔
    ((Slots.ofLayout move layout table).flatMap Slots.oversized).head? = some fault
  written : (∃ listings, Listing.ofLayout layout table = .ok listings) ↔
    ∀ slots ∈ Slots.ofLayout move layout table, slots.Fits

theorem checks_register (layout : Layout) (table : String)
    (few : layout.tables.length ≤ mostStages) : Checks Listing.register layout table := by
  have fails := Listing.failsWith_ofLayout layout table few
  refine ⟨fails, ?_⟩
  rw [fails.exists_ok_iff, List.flatMap_eq_nil_iff]
  exact forall_congr' fun slots => imp_congr_right fun _ => slots.oversized_eq_nil_iff

/-- What is checked is what stands in a register of 64 bits. As long as no entry is too long for
the register, these are the entries themselves, and index tables with at most four bytes for each
of them hold them in full. -/
theorem checks_contained (layout : Layout) (table : String)
    (few : layout.tables.length ≤ mostStages) :
    Checks Listing.register layout table ∧
      (layout.Contained → Checks Stage.moved layout table ∧
        ∀ listings, Listing.ofLayout layout table = .ok listings →
          ∀ place entries stage, layout.tables.dropLast[place]? = some entries →
            layout.stages[place]? = some stage → stage.entryBytes ≤ 4 →
            ∃ listing, listings[place]? = some listing ∧
              Decoded.read listing (16 < 8 * stage.entryBytes) =
                .ok (indexName place, (entries.map stage.moved).toArray)) := by
  have checks := checks_register layout table few
  refine ⟨checks, fun contained => ⟨?_, ?_⟩⟩
  · have same := contained.slots_eq table
    exact ⟨same ▸ checks.refused, same ▸ checks.written⟩
  · intro listings written place entries stage found staged narrow
    have member : (entries, stage) ∈ layout.tables.dropLast.zip layout.stages :=
      List.mem_of_getElem? (List.getElem?_zip_eq_some.mpr ⟨found, staged⟩)
    rw [← contained.map_register entries stage member]
    exact Listing.read_index layout table listings place entries stage written found staged narrow

theorem checks_contained_by_hand :
    let tooBig : Layout :=
      { widths := [1, 1, 1], tables := [[0, 1], [0, 300, 70000], [7, 70000]]
        stages := [{ entryBytes := 1 }, { entryBytes := 1, preshifted := true }, Stage.final]
        width := .sixteen }
    let wide : Layout :=
      { widths := [1, 1], tables := [[0, 0xFFFFFF], [3, 0, 1]]
        stages := [{ entryBytes := 4, preshifted := true, nextBits := 8 }, Stage.final]
        width := .two }
    Listing.ofLayout tooBig "T" = .error (.entryTooBig "ZZ_CMAP_Y" 300 8) ∧
      ∃ listings listing, Listing.ofLayout wide "T" = .ok listings ∧
        listings[0]? = some listing ∧
        Decoded.read listing true = .ok ("ZZ_CMAP_Z", #[0, 0xFFFFFF00]) := by
  intro tooBig wide
  obtain ⟨_, checked⟩ := checks_contained tooBig "T" (by decide)
  obtain ⟨_, exact⟩ := checks_contained wide "T" (by decide)
  obtain ⟨writes, reads⟩ := exact (contained_of_narrow wide (by decide) (by decide))
  obtain ⟨listings, written⟩ := writes.written.mpr (by decide)
  obtain ⟨listing, there, read⟩ := reads listings written 0 _ _ rfl rfl (by decide)
  exact ⟨((checked (by decide)).1.refused _).mpr (by decide), listings, listing, written, there,
    read⟩

/-- An entry that is moved out of the register passes for another one. So does one with more bits
than two values hold, if its stage has the bytes for it. -/
theorem ofLayout_loses_bits :
    let outOfRegister : Layout :=
      { widths := [1, 1], tables := [[0, 2], [0, 1]]
        stages := [{ entryBytes := 1, preshifted := true, nextBits := 63 }, Stage.final]
        width := .sixteen }
    let fiveBytes : Layout :=
      { widths := [1, 1], tables := [[0, 2], [0, 1]]
        stages := [{ entryBytes := 5, preshifted := true, nextBits := 32 }, Stage.final]
        width := .sixteen }
    ¬ Checks Stage.moved outOfRegister "ZZ_CMAP_A" ∧
      (∃ listing final, Listing.ofLayout outOfRegister "ZZ_CMAP_A" = .ok [listing, final] ∧
        Decoded.read listing false = .ok ("ZZ_CMAP_Z", #[0, 0])) ∧
      ∃ listing final, Listing.ofLayout fiveBytes "ZZ_CMAP_A" = .ok [listing, final] ∧
        Decoded.read listing true = .ok ("ZZ_CMAP_Z", #[0, 0]) := by
  intro outOfRegister fiveBytes
  have written : Listing.ofLayout outOfRegister "ZZ_CMAP_A" =
      .ok [Listing.spelling "ZZ_CMAP_Z" [0, 0], Listing.spelling "ZZ_CMAP_A" [0, 1]] := rfl
  have cut : Listing.ofLayout fiveBytes "ZZ_CMAP_A" =
      .ok [Listing.spelling "ZZ_CMAP_Z" [0, 0, 0, 0], Listing.spelling "ZZ_CMAP_A" [0, 1]] := rfl
  refine ⟨?_, ⟨_, _, written, Decoded.read_spelling _ _ _⟩, _, _, cut, Decoded.read_spelling _ _ _⟩
  intro checks
  exact absurd (checks.written.mp ⟨_, written⟩) (by decide)

end Layout

end Multistage
