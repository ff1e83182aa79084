import Multistage.Proofs.Numbering
import Multistage.Proofs.Outcome
import Multistage.Proofs.Segments

/-!
A table deduplicated: where it succeeds, how long the parts are, that every entry is found again
in the stored blocks, and that deduplicating the numbers of short blocks amounts to deduplicating
long blocks.
-/

namespace Multistage.Table

def condensed (table : Table) (blockBits : Nat) : Deduplicated :=
  let numbering := Numbering.ofList (segments (2 ^ blockBits) table)
  { index := numbering.index, stored := numbering.distinct.flatten }

def variety (table : Table) (blockBits : Nat) : Nat :=
  (segments (2 ^ blockBits) table).toFinset.card

theorem deduplicate_eq_ok_iff (table : Table) (blockBits : Nat) (level : Deduplicated) :
    table.deduplicate blockBits = .ok level ↔
      blockBits < 64 ∧ 2 ^ blockBits ∣ table.length ∧ level = table.condensed blockBits := by
  rw [deduplicate, Nat.one_shiftLeft, blocks_eq_segments]
  by_cases long : 64 ≤ blockBits
  · simp [long, Nat.not_lt.mpr long]
  · by_cases aligned : 2 ^ blockBits ∣ table.length
    · simp [long, aligned, Nat.mod_eq_zero_of_dvd aligned, Nat.lt_of_not_le long, condensed,
        eq_comm]
    · simp [long, aligned, mt Nat.dvd_of_mod_eq_zero aligned]

theorem deduplicate_eq_error_iff (table : Table) (blockBits : Nat) (fault : Fault) :
    table.deduplicate blockBits = .error fault ↔
      ¬ (blockBits < 64 ∧ 2 ^ blockBits ∣ table.length) ∧
        fault = .ragged table.length blockBits := by
  rw [deduplicate, Nat.one_shiftLeft]
  by_cases long : 64 ≤ blockBits
  · simp [long, Nat.not_lt.mpr long, eq_comm]
  · by_cases aligned : 2 ^ blockBits ∣ table.length
    · simp [long, aligned, Nat.mod_eq_zero_of_dvd aligned, Nat.lt_of_not_le long]
    · simp [long, aligned, mt Nat.dvd_of_mod_eq_zero aligned, eq_comm]

theorem level_eq_ok_iff (table : Table) (blockBits : Nat) (level : Deduplicated) :
    table.level blockBits = .ok level ↔
      blockBits < 64 ∧ 2 ^ blockBits ∣ table.length ∧
        level = (table.condensed blockBits).recorded := by
  rw [Table.level, map_eq_ok_iff]
  simp only [deduplicate_eq_ok_iff]
  constructor
  · rintro ⟨_, ⟨short, aligned, rfl⟩, rfl⟩
    exact ⟨short, aligned, rfl⟩
  · rintro ⟨short, aligned, rfl⟩
    exact ⟨_, ⟨short, aligned, rfl⟩, rfl⟩

theorem level_eq_error_iff (table : Table) (blockBits : Nat) (fault : Fault) :
    table.level blockBits = .error fault ↔
      ¬ (blockBits < 64 ∧ 2 ^ blockBits ∣ table.length) ∧
        fault = .ragged table.length blockBits := by
  rw [Table.level, map_eq_error_iff, deduplicate_eq_error_iff]

theorem length_condensed_index (table : Table) (blockBits : Nat) :
    (table.condensed blockBits).index.length = table.length / 2 ^ blockBits := by
  simp [condensed, Numbering.length_index, length_segments]

theorem length_of_mem_distinct (table segment : Table) (size : Nat)
    (member : segment ∈ (Numbering.ofList (segments size table)).distinct) :
    segment.length = size :=
  length_of_mem_segments size table segment ((Numbering.mem_distinct _ _).mp member)

theorem length_condensed_stored (table : Table) (blockBits : Nat) :
    (table.condensed blockBits).stored.length = 2 ^ blockBits * table.variety blockBits := by
  rw [condensed, length_flatten_of_uniform _ _ fun segment =>
    length_of_mem_distinct table segment _, Numbering.length_distinct, variety]

theorem segments_condensed_stored (table : Table) (blockBits : Nat) :
    segments (2 ^ blockBits) (table.condensed blockBits).stored =
      (Numbering.ofList (segments (2 ^ blockBits) table)).distinct :=
  segments_flatten _ _ (Nat.two_pow_pos blockBits) fun segment =>
    length_of_mem_distinct table segment _

theorem lt_variety_of_mem_index (table : Table) (blockBits number : Nat)
    (member : number ∈ (table.condensed blockBits).index) : number < table.variety blockBits := by
  rw [variety, ← Numbering.length_distinct]
  exact Numbering.lt_length_distinct_of_mem_index _ _ member

theorem lt_variety_of_mem_recorded (table : Table) (blockBits number : Nat)
    (member : number ∈ (table.condensed blockBits).recorded.index) :
    number < table.variety blockBits := by
  obtain ⟨whole, kept, rfl⟩ := List.mem_map.mp member
  exact Nat.lt_of_le_of_lt (Nat.mod_le _ _) (lt_variety_of_mem_index table blockBits whole kept)

theorem recorded_condensed (table : Table) (blockBits : Nat)
    (few : table.variety blockBits ≤ 2 ^ 32) :
    (table.condensed blockBits).recorded = table.condensed blockBits := by
  have kept : (table.condensed blockBits).index.map (· % 0x100000000) =
      (table.condensed blockBits).index := by
    conv => rhs; rw [← List.map_id (table.condensed blockBits).index]
    apply List.map_congr_left
    intro number member
    have bound := lt_variety_of_mem_index table blockBits number member
    exact Nat.mod_eq_of_lt (by omega)
  rw [Deduplicated.recorded, kept]

theorem level_eq_deduplicate (table : Table) (blockBits : Nat)
    (few : table.variety blockBits ≤ 2 ^ 32) :
    table.level blockBits = table.deduplicate blockBits := by
  rw [Table.level]
  cases deduplicated : table.deduplicate blockBits with
  | error fault => rfl
  | ok level =>
      obtain ⟨_, _, rfl⟩ := (deduplicate_eq_ok_iff _ _ _).mp deduplicated
      rw [Except.map, recorded_condensed table blockBits few]

theorem mem_of_mem_stored (table : Table) (blockBits entry : Nat)
    (member : entry ∈ (table.condensed blockBits).stored) : entry ∈ table := by
  obtain ⟨segment, distinct, inside⟩ := List.mem_flatten.mp member
  exact mem_of_mem_segments _ _ _ _ ((Numbering.mem_distinct _ _).mp distinct) inside

theorem find?_stored (table : Table) (blockBits : Nat) (check : Nat → Bool)
    (aligned : 2 ^ blockBits ∣ table.length) :
    (table.condensed blockBits).stored.find? check = table.find? check := by
  rw [condensed, Numbering.ofList_distinct, Numbering.find?_flatten_eraseDups,
    flatten_segments _ _ aligned]

theorem two_pow_mul_variety_le (table : Table) (blockBits : Nat) :
    2 ^ blockBits * table.variety blockBits ≤ table.length := by
  calc 2 ^ blockBits * table.variety blockBits
      ≤ 2 ^ blockBits * (segments (2 ^ blockBits) table).length :=
        Nat.mul_le_mul_left _ (List.toFinset_card_le _)
    _ = 2 ^ blockBits * (table.length / 2 ^ blockBits) := by rw [length_segments]
    _ ≤ table.length := Nat.mul_div_le _ _

theorem variety_le_length (table : Table) (blockBits : Nat) :
    table.variety blockBits ≤ table.length :=
  Nat.le_trans (Nat.le_mul_of_pos_left _ (Nat.two_pow_pos blockBits))
    (two_pow_mul_variety_le table blockBits)

theorem getElem?_condensed_stored (table : Table) (blockBits place number : Nat)
    (aligned : 2 ^ blockBits ∣ table.length) (bound : place < table.length)
    (numbered : (table.condensed blockBits).index[place / 2 ^ blockBits]? = some number) :
    (table.condensed blockBits).stored[number * 2 ^ blockBits + place % 2 ^ blockBits]? =
      table[place]? := by
  have positive : 0 < 2 ^ blockBits := Nat.two_pow_pos blockBits
  have inside : place / 2 ^ blockBits < table.length / 2 ^ blockBits :=
    Nat.div_lt_div_of_lt_of_dvd aligned bound
  have found := Numbering.getElem?_distinct_of_index _ _ _ numbered
  rw [getElem?_segments _ _ _ inside] at found
  have block := drop_take_flatten _ number _ _
    (fun segment member => length_of_mem_distinct table segment _ member) found
  have below := Nat.mod_lt place positive
  calc (table.condensed blockBits).stored[number * 2 ^ blockBits + place % 2 ^ blockBits]?
      = (((table.condensed blockBits).stored.drop (number * 2 ^ blockBits)).take
          (2 ^ blockBits))[place % 2 ^ blockBits]? := by
        rw [List.getElem?_take_of_lt below, List.getElem?_drop]
    _ = ((table.drop (place / 2 ^ blockBits * 2 ^ blockBits)).take
          (2 ^ blockBits))[place % 2 ^ blockBits]? := by
        rw [condensed, block]
    _ = table[place]? := by
        rw [List.getElem?_take_of_lt below, List.getElem?_drop, Nat.div_add_mod']

def word (table : Table) (blockBits number : Nat) : Table :=
  (Numbering.ofList (segments (2 ^ blockBits) table)).distinct.getD number []

theorem word_eq_getElem (table : Table) (blockBits number : Nat)
    (known : number < (Numbering.ofList (segments (2 ^ blockBits) table)).distinct.length) :
    table.word blockBits number =
      (Numbering.ofList (segments (2 ^ blockBits) table)).distinct[number] :=
  (List.getElem_eq_getD []).symm

theorem map_word_index (table : Table) (blockBits : Nat) :
    (table.condensed blockBits).index.map (table.word blockBits) =
      segments (2 ^ blockBits) table :=
  Numbering.map_getD_index (segments (2 ^ blockBits) table) []

theorem segments_add (table : Table) (upper lower : Nat) :
    segments (2 ^ (upper + lower)) table =
      (segments (2 ^ upper) (table.condensed lower).index).map
        (List.flatMap (table.word lower)) := by
  rw [Nat.pow_add, segments_mul, ← map_word_index, segments_map, List.map_map]
  rfl

theorem flatMap_word_injective (table : Table) (upper lower : Nat) (left right : List Nat)
    (leftMember : left ∈ segments (2 ^ upper) (table.condensed lower).index)
    (rightMember : right ∈ segments (2 ^ upper) (table.condensed lower).index)
    (spelled : left.flatMap (table.word lower) = right.flatMap (table.word lower)) :
    left = right := by
  let items := segments (2 ^ lower) table
  refine eq_of_flatMap_eq (table.word lower) (2 ^ lower)
    (· < (Numbering.ofList items).distinct.length) ?_ ?_ left right ?_ ?_ ?_ spelled
  · intro number known
    rw [word_eq_getElem table lower number known]
    exact length_of_mem_distinct table _ _ (List.getElem_mem known)
  · intro first second firstKnown secondKnown same
    rw [word_eq_getElem table lower first firstKnown,
      word_eq_getElem table lower second secondKnown] at same
    exact (Numbering.nodup_distinct items).getElem_inj_iff.mp same
  · intro number member
    exact Numbering.lt_length_distinct_of_mem_index _ _
      (mem_of_mem_segments _ _ _ _ leftMember member)
  · intro number member
    exact Numbering.lt_length_distinct_of_mem_index _ _
      (mem_of_mem_segments _ _ _ _ rightMember member)
  · rw [length_of_mem_segments _ _ _ leftMember, length_of_mem_segments _ _ _ rightMember]

theorem ofList_segments_add (table : Table) (upper lower : Nat) :
    let long := Numbering.ofList (segments (2 ^ (upper + lower)) table)
    let short := Numbering.ofList (segments (2 ^ upper) (table.condensed lower).index)
    long.index = short.index ∧
      long.distinct = short.distinct.map (List.flatMap (table.word lower)) := by
  rw [segments_add]
  exact Numbering.ofList_map _ _ fun left leftMember right rightMember =>
    flatMap_word_injective table upper lower left right leftMember rightMember

/-- Two levels of blocks number the long blocks as one level does. -/
theorem condensed_condensed (table : Table) (upper lower : Nat) :
    ((table.condensed lower).index.condensed upper).index =
        (table.condensed (upper + lower)).index ∧
      (table.condensed (upper + lower)).stored =
        ((table.condensed lower).index.condensed upper).stored.flatMap (table.word lower) := by
  obtain ⟨index, distinct⟩ := ofList_segments_add table upper lower
  refine ⟨index.symm, ?_⟩
  simp only [condensed, distinct, List.flatMap_def, List.map_flatten, List.flatten_flatten,
    List.map_map]
  rfl

theorem variety_condensed (table : Table) (upper lower : Nat) :
    (table.condensed lower).index.variety upper = table.variety (upper + lower) := by
  rw [variety, variety, ← Numbering.length_distinct, ← Numbering.length_distinct,
    (ofList_segments_add table upper lower).2, List.length_map]

end Multistage.Table
