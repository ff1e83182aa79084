import Multistage.Proofs.Stack

/-!
Numbers replaced by the blocks that they stand for. A deduplicated table is got back from its
index in this way, also through several levels. Blocks of the numbers of short blocks stand for
long blocks: deduplicating in two steps numbers the long blocks as a single step does, and stores
them spelled in numbers.
-/

namespace Multistage

namespace Table

/-- The stored blocks with the given numbers, one after the other. There is no result if a number
is past the last block. -/
def spelled? (stored : Table) (blockBits : Nat) : List Nat → Option Table
  | [] => some []
  | number :: later => do
      let block ← (segments (2 ^ blockBits) stored)[number]?
      let rest ← spelled? stored blockBits later
      return block ++ rest

theorem getElem?_segments_stored (table : Table) (blockBits number : Nat)
    (known : number < table.variety blockBits) :
    (segments (2 ^ blockBits) (table.condensed blockBits).stored)[number]? =
      some (table.word blockBits number) := by
  rw [variety, ← Numbering.length_distinct] at known
  rw [segments_condensed_stored, List.getElem?_eq_getElem known,
    word_eq_getElem table blockBits number known]

theorem spelled?_eq_flatMap (table : Table) (blockBits : Nat) (numbers : List Nat)
    (known : ∀ number ∈ numbers, number < table.variety blockBits) :
    (table.condensed blockBits).stored.spelled? blockBits numbers =
      some (numbers.flatMap (table.word blockBits)) := by
  induction numbers with
  | nil => rfl
  | cons number later ih =>
      obtain ⟨firstKnown, laterKnown⟩ := List.forall_mem_cons.mp known
      rw [spelled?, getElem?_segments_stored table blockBits number firstKnown, ih laterKnown,
        List.flatMap_cons]
      rfl

theorem spelled?_index (table : Table) (blockBits : Nat) (aligned : 2 ^ blockBits ∣ table.length) :
    (table.condensed blockBits).stored.spelled? blockBits (table.condensed blockBits).index =
      some table := by
  rw [spelled?_eq_flatMap table blockBits _ (lt_variety_of_mem_index table blockBits),
    List.flatMap_def, map_word_index, flatten_segments _ _ aligned]

theorem spelled?_condensed_stored (table : Table) (upper lower : Nat) :
    (table.condensed lower).stored.spelled? lower
        ((table.condensed lower).index.condensed upper).stored =
      some (table.condensed (upper + lower)).stored := by
  have known : ∀ number ∈ ((table.condensed lower).index.condensed upper).stored,
      number < table.variety lower := by
    intro number member
    exact lt_variety_of_mem_index table lower number (mem_of_mem_stored _ upper number member)
  rw [spelled?_eq_flatMap table lower _ known, (condensed_condensed table upper lower).2]

/-- Where the long blocks fit, short blocks and then blocks of their numbers can be deduplicated
as well. The two steps end with the index of the single step, and the stored blocks of numbers
spell its stored blocks. With 32 bits for all numbers, these are the levels of a layout. -/
theorem deduplicate_add (table : Table) (upper lower : Nat) (short : upper + lower < 64)
    (aligned : 2 ^ (upper + lower) ∣ table.length) :
    ∃ inner outer whole : Deduplicated,
      table.deduplicate lower = .ok inner ∧
        inner.index.deduplicate upper = .ok outer ∧
        table.deduplicate (upper + lower) = .ok whole ∧
        outer.index = whole.index ∧
        inner.stored.spelled? lower outer.stored = some whole.stored ∧
        ((segments (2 ^ lower) table).toFinset.card ≤ 2 ^ 32 →
          (segments (2 ^ (upper + lower)) table).toFinset.card ≤ 2 ^ 32 →
          table.level lower = .ok inner ∧ inner.index.level upper = .ok outer ∧
            table.level (upper + lower) = .ok whole) := by
  obtain ⟨lowerAligned, upperAligned⟩ := (Layout.two_pow_add_dvd_iff _ _ _).mp aligned
  rw [← length_condensed_index] at upperAligned
  have inner := (deduplicate_eq_ok_iff table lower _).mpr ⟨by omega, lowerAligned, rfl⟩
  have outer := (deduplicate_eq_ok_iff (table.condensed lower).index upper _).mpr
    ⟨by omega, upperAligned, rfl⟩
  have whole := (deduplicate_eq_ok_iff table (upper + lower) _).mpr ⟨short, aligned, rfl⟩
  refine ⟨_, _, _, inner, outer, whole, (condensed_condensed table upper lower).1,
    spelled?_condensed_stored table upper lower, ?_⟩
  intro few fewLong
  have fewNumbers : (table.condensed lower).index.variety upper ≤ 2 ^ 32 := by
    rw [variety_condensed]
    exact fewLong
  exact ⟨(level_eq_deduplicate table lower few).trans inner,
    (level_eq_deduplicate _ upper fewNumbers).trans outer,
    (level_eq_deduplicate table _ fewLong).trans whole⟩

theorem deduplicate_add_swapped_halves :
    1 + 1 < 64 ∧ 2 ^ (1 + 1) ∣ [5, 6, 7, 8, 5, 6, 7, 8, 7, 8, 5, 6].length ∧
      deduplicate [5, 6, 7, 8, 5, 6, 7, 8, 7, 8, 5, 6] 1 =
        .ok ⟨[0, 1, 0, 1, 1, 0], [5, 6, 7, 8]⟩ ∧
      deduplicate [0, 1, 0, 1, 1, 0] 1 = .ok ⟨[0, 0, 1], [0, 1, 1, 0]⟩ ∧
      spelled? [5, 6, 7, 8] 1 [0, 1, 1, 0] = some [5, 6, 7, 8, 7, 8, 5, 6] ∧
      deduplicate [5, 6, 7, 8, 5, 6, 7, 8, 7, 8, 5, 6] (1 + 1) =
        .ok ⟨[0, 0, 1], [5, 6, 7, 8, 7, 8, 5, 6]⟩ := by
  have blocks : deduplicate [5, 6, 7, 8, 5, 6, 7, 8, 7, 8, 5, 6] 1 =
      .ok ⟨[0, 1, 0, 1, 1, 0], [5, 6, 7, 8]⟩ := by cbv
  have numbers : deduplicate [0, 1, 0, 1, 1, 0] 1 = .ok ⟨[0, 0, 1], [0, 1, 1, 0]⟩ := by cbv
  have spelled : spelled? [5, 6, 7, 8] 1 [0, 1, 1, 0] = some [5, 6, 7, 8, 7, 8, 5, 6] := rfl
  obtain ⟨inner, outer, whole, innerOk, outerOk, wholeOk, index, stored, _⟩ :=
    deduplicate_add [5, 6, 7, 8, 5, 6, 7, 8, 7, 8, 5, 6] 1 1 (by decide) (by decide)
  obtain rfl := Except.ok.inj (blocks.symm.trans innerOk)
  obtain rfl := Except.ok.inj (numbers.symm.trans outerOk)
  -- The long blocks are not cut again: what the two steps gave tells both of their parts.
  obtain ⟨longIndex, longStored⟩ := whole
  obtain rfl : [0, 0, 1] = longIndex := index
  obtain rfl := Option.some.inj (spelled.symm.trans stored)
  exact ⟨by decide, by decide, blocks, numbers, spelled, wholeOk⟩

end Table

namespace Layout

def spelled? : List (Nat × Table) → Table → Option Table
  | [], table => some table
  | (blockBits, stored) :: finer, numbers => do
      let below ← stored.spelled? blockBits numbers
      spelled? finer below

theorem spelled?_below (map : Table) (finer : List Nat) (numbered : Numbered map finer)
    (aligned : 2 ^ finer.sum ∣ map.length) :
    spelled? (finer.zip (storedTables map finer)) (below map finer) = some map := by
  induction finer with
  | nil => rfl
  | cons width finer ih =>
      rw [List.sum_cons, two_pow_add_dvd_iff] at aligned
      obtain ⟨lower, upper⟩ := aligned
      rw [← length_below] at upper
      rw [storedTables, List.zip_cons_cons, spelled?, ← condensed_below map width finer numbered,
        Table.spelled?_index (below map finer) width upper]
      exact ih ((numbered_cons map width finer).mp numbered).2 lower

theorem spelled?_of_ofMap (map : Table) (coarsest : Nat) (finer : List Nat) (width : ClassWidth)
    (layout : Layout) (numbered : Numbered map finer)
    (built : ofMap map (coarsest :: finer) width = .ok layout) :
    ∃ index tables, layout.tables = index :: tables ∧
      spelled? (finer.zip tables) index = some map := by
  obtain ⟨_, _, same, fits, rfl⟩ := (ofMap_eq_ok_iff _ _ _ _).mp built
  obtain ⟨rfl, rfl⟩ := List.cons_eq_cons.mp same
  exact ⟨below map finer, storedTables map finer, rfl,
    spelled?_below map finer numbered fits.aligned⟩

end Layout

end Multistage
