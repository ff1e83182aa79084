import Multistage.Proofs.Decoded

/-!
Inputs past the end of a map. The topmost stage takes all high bits of the input unmasked and its
table ends with the map, so the first fetch fails. Only where a packed final table stands alone
does its last storage unit reach past the map, and the room left in it reads as class zero.
-/

namespace Multistage

namespace Formula

variable (fetch? : String → Nat → Option Nat) (value : Nat)

theorem eval?_index_shifted (table : String) (word : Formula) (distance : Nat)
    (entries : Array Nat) (input : word.eval? fetch? value = some value)
    (stocked : ∀ place, fetch? table place = entries[place]?)
    (past : entries.size ≤ value / 2 ^ distance) :
    (index table (shifted word distance)).eval? fetch? value = none := by
  by_cases near : distance < 32
  · have slice := eval?_shifted fetch? value word value distance near input
    simp only [eval?, slice, bind, Option.bind, stocked]
    exact Array.getElem?_eq_none past
  · have moved : distance ≠ 0 := by omega
    simp [shifted, moved, eval?, input, shiftRight?, near]

theorem eval?_fetch_eq_none (stage : Stage) (table : String) (place : Formula)
    (missing : (index table place).eval? fetch? value = none) :
    (fetch stage table place).eval? fetch? value = none := by
  have entry : (if stage.extendMask = 0 then index table place
      else and (index table place) (mask stage.extendMask)).eval? fetch? value = none := by
    split
    · exact missing
    · rw [eval?, missing]
      rfl
  rw [fetch]
  split
  · exact entry
  · rw [eval?, entry]
    rfl

theorem eval?_position_eq_none (base slice : Formula) (bits : Nat)
    (missing : base.eval? fetch? value = none) :
    (position (some base) slice bits).eval? fetch? value = none := by
  rw [position]
  split
  · exact missing
  · rw [eval?, missing]
    rfl

theorem eval?_index_eq_none (table : String) (place : Formula)
    (missing : place.eval? fetch? value = none) :
    (index table place).eval? fetch? value = none := by
  rw [eval?, missing]
  rfl

theorem eval?_select_eq_none (width : ClassWidth) (word unit : Formula)
    (missing : unit.eval? fetch? value = none) :
    (select width word unit).eval? fetch? value = none := by
  rw [select]
  split
  · simp only [eval?, missing, bind, Option.bind]
  · exact missing

theorem eval?_descend_eq_none (table : String) (word : Formula) (width : ClassWidth)
    (depth : Nat) (base : Formula) (current : Nat × Stage) (finer : List (Nat × Stage))
    (missing : base.eval? fetch? value = none) :
    (descend table word width depth (some base) current finer).eval? fetch? value = none := by
  induction finer generalizing depth base current with
  | nil =>
      apply eval?_select_eq_none
      apply eval?_fetch_eq_none
      apply eval?_index_eq_none
      exact eval?_position_eq_none fetch? value base _ _ missing
  | cons next finer ih =>
      apply ih
      apply eval?_fetch_eq_none
      apply eval?_index_eq_none
      exact eval?_position_eq_none fetch? value base _ _ missing

section Layout

open Layout

variable (map : Table) (width : ClassWidth) (table : String) (word : Formula) (bits : Nat)

theorem eval?_single_unpacked (unpacked : width.isPacked = false)
    (input : word.eval? fetch? value = some value)
    (stocked : Stocked fetch? table width 0 [map] [Stage.final])
    (outside : map.length ≤ value) :
    (descend table word width 0 none (bits, Stage.final) []).eval? fetch? value = none := by
  have single : width.unitExponent = 0 := by
    simpa [ClassWidth.isPacked] using unpacked
  have entries := stocked _ _ List.mem_cons_self
  simp only [Listing.storedClasses, unpacked, Bool.false_eq_true, if_false] at entries
  apply eval?_select_eq_none
  apply eval?_fetch_eq_none
  apply eval?_index_shifted fetch? value table word _ _ input entries
  simpa [Stage.final, single] using outside

theorem eval?_single_packed (packed : width.isPacked = true)
    (fits : ∀ entry ∈ map, entry ≤ width.max) (input : word.eval? fetch? value = some value)
    (stocked : Stocked fetch? table width 0 [map] [Stage.final])
    (outside : map.length ≤ value) :
    (descend table word width 0 none (bits, Stage.final) []).eval? fetch? value =
      if value < width.perUnit * ((map.length + width.perUnit - 1) / width.perUnit) then some 0
      else none := by
  have units := Listing.perUnit_eq width packed
  have positive : 0 < width.perUnit := by
    rw [units]
    exact Nat.two_pow_pos _
  have near : width.unitExponent < 32 := by cases width <;> decide
  have words := stocked _ _ List.mem_cons_self
  simp only [Listing.storedClasses, packed, if_true] at words
  have slice : Stage.final.shift + width.unitExponent = width.unitExponent := Nat.zero_add _
  have reach : value / width.perUnit < (map.length + width.perUnit - 1) / width.perUnit ↔
      value < width.perUnit * ((map.length + width.perUnit - 1) / width.perUnit) := by
    rw [Nat.div_lt_iff_lt_mul positive, Nat.mul_comm]
  rw [descend, slice]
  split
  · rename_i inside
    obtain ⟨stored, found⟩ : ∃ stored,
        (Listing.unitWords width map)[value / width.perUnit]? = some stored :=
      ⟨_, by rw [Listing.getElem?_unitWords, if_pos (reach.mpr inside)]⟩
    have held := Listing.unitWords_past width map fits value stored found outside
    have place := eval?_shifted fetch? value word value _ near input
    have unit : (fetch Stage.final table (position none (shifted word width.unitExponent)
        (bits - width.unitExponent))).eval? fetch? value = some stored := by
      have direct (slice : Formula) :
          fetch Stage.final table (position none slice (bits - width.unitExponent)) =
            index table slice := rfl
      rw [direct, eval?, place, ← units]
      exact (words _).trans (List.getElem?_toArray.trans found)
    rw [eval?_select fetch? value width word _ value stored packed input unit, held, Nat.zero_mod]
  · rename_i beyond
    apply eval?_select_eq_none
    apply eval?_fetch_eq_none
    apply eval?_index_shifted fetch? value table word _ _ input words
    rw [List.size_toArray, Listing.length_unitWords, ← units]
    exact Nat.le_of_not_lt (mt reach.mp beyond)

theorem eval?_descend_outside (next : Nat) (finer : List Nat) (stage : Stage)
    (stages : List Stage) (above : stagesBelow map width (next :: finer) = stage :: stages)
    (input : word.eval? fetch? value = some value)
    (stocked : Stocked fetch? table width 0
      (below map (next :: finer) :: storedTables map (next :: finer)) (stage :: stages))
    (outside : map.length ≤ value) :
    (descend table word width 0 none (bits, stage) ((next :: finer).zip stages)).eval? fetch?
      value = none := by
  obtain ⟨rfl, rfl⟩ := List.cons_eq_cons.mp above
  obtain ⟨following, later, rest⟩ := List.exists_cons_of_length_eq_add_one
    (length_stagesBelow map width finer)
  rw [rest, List.zip_cons_cons]
  apply eval?_descend_eq_none
  apply eval?_fetch_eq_none
  apply eval?_index_shifted fetch? value _ word _ _ input (stocked _ _ List.mem_cons_self)
  rw [List.size_toArray, List.length_map, length_below]
  exact Nat.div_le_div_right outside

end Layout

end Formula

namespace Decoded

/-- Past the end of a map nothing is found, whatever the widths, except that the room left in the
last storage unit of a packed table without an index reads as class zero. -/
theorem get?_outside (map : Table) (widths : List Nat) (width : ClassWidth)
    (table input : String) (bundle : Bundle) (decoded : Decoded)
    (distinct : ∀ stage < widths.length - 1, table ≠ indexName stage)
    (made : Bundle.ofWidths map widths width table input = .ok bundle)
    (read : ofBundle bundle = .ok decoded) (value : Nat) (outside : map.length ≤ value) :
    decoded.get? value =
      if widths.length = 1 ∧ width.isPacked = true ∧
          value < width.perUnit * ((map.length + width.perUnit - 1) / width.perUnit) then some 0
      else none := by
  obtain ⟨layout, built, ofLayout⟩ := (Bundle.ofWidths_eq_ok_iff _ _ _ _ _ _).mp made
  obtain ⟨coarsest, finer, rfl, fits, rfl⟩ := (Layout.ofMap_eq_ok_iff _ _ _ _).mp built
  obtain ⟨again, stage, stages, readAgain, above, descends, stocked⟩ :=
    Layout.exists_decoded map coarsest finer width table input bundle distinct ofLayout
  obtain rfl : decoded = again := by simpa [read] using readAgain
  rw [get?, descends]
  cases finer with
  | cons next finer =>
      rw [if_neg (by simp)]
      exact Formula.eval?_descend_outside decoded.fetch? value map width table (.input input)
        coarsest next finer stage stages above rfl stocked outside
  | nil =>
      obtain ⟨rfl, rfl⟩ := List.cons_eq_cons.mp above
      obtain ⟨_, _, _, written, _⟩ := (Bundle.ofLayout_eq_ok_iff _ _ _ _).mp ofLayout
      obtain ⟨_, _, last, _, lastWritten, _⟩ :=
        (Listing.ofLayout_eq_ok_iff _ _ _ (List.cons_ne_nil _ _)).mp written
      have classes := ((Listing.ofClasses_eq_ok_iff _ _ _ _).mp lastWritten).1
      cases packed : width.isPacked with
      | false =>
          rw [if_neg (by simp)]
          exact Formula.eval?_single_unpacked decoded.fetch? value map width table (.input input)
            coarsest packed rfl stocked outside
      | true =>
          simp only [List.length_singleton, true_and]
          exact Formula.eval?_single_packed decoded.fetch? value map width table (.input input)
            coarsest packed classes rfl stocked outside

theorem get?_outside_padded_unit :
    (∃ bundle decoded,
      Bundle.ofWidths [5, 5, 6, 6, 7, 7, 6, 6, 5, 5, 6, 6] [2, 2] .sixteen "T" "ch" = .ok bundle ∧
        ofBundle bundle = .ok decoded ∧ decoded.get? 12 = none ∧
        decoded.get? 0xFFFFFFFF = none) ∧
      ∃ bundle decoded,
        Bundle.ofWidths [9, 9, 9, 9, 9] [3] .four "T" "ch" = .ok bundle ∧
        ofBundle bundle = .ok decoded ∧ decoded.get? 7 = some 0 ∧ decoded.get? 8 = none := by
  have built : Layout.ofMap [5, 5, 6, 6, 7, 7, 6, 6, 5, 5, 6, 6] [2, 2] .sixteen = .ok
      { widths := [2, 2]
        tables := [[0, 1, 0], [5, 5, 6, 6, 7, 7, 6, 6]]
        stages := [Stage.pointing 8 2 2, Stage.final]
        width := .sixteen } := by cbv
  have builtPacked : Layout.ofMap [9, 9, 9, 9, 9] [3] .four = .ok
      { widths := [3], tables := [[9, 9, 9, 9, 9]], stages := [Stage.final], width := .four } := by
    cbv
  have made := (Bundle.ofWidths_eq_ok_iff _ _ _ "T" "ch" _).mpr
    ⟨_, built, (Bundle.ofLayout_eq_ok_iff _ _ _ _).mpr ⟨_, _, rfl, rfl, rfl⟩⟩
  have madePacked := (Bundle.ofWidths_eq_ok_iff _ _ _ "T" "ch" _).mpr
    ⟨_, builtPacked, (Bundle.ofLayout_eq_ok_iff _ _ _ _).mpr ⟨_, _, rfl, rfl, rfl⟩⟩
  obtain ⟨decoded, read⟩ := Bundle.exists_ofBundle_of_widths _ _ _ _ _ _ made
  obtain ⟨decodedPacked, readPacked⟩ := Bundle.exists_ofBundle_of_widths _ _ _ _ _ _ madePacked
  refine ⟨⟨_, decoded, made, read, ?_, ?_⟩, _, decodedPacked, madePacked, readPacked, ?_, ?_⟩
  · exact get?_outside _ _ _ _ _ _ decoded (by decide) made read 12 (by decide)
  · exact get?_outside _ _ _ _ _ _ decoded (by decide) made read 0xFFFFFFFF (by decide)
  · exact get?_outside _ _ _ _ _ _ decodedPacked (by decide) madePacked readPacked 7 (by decide)
  · exact get?_outside _ _ _ _ _ _ decodedPacked (by decide) madePacked readPacked 8 (by decide)

end Decoded

end Multistage
