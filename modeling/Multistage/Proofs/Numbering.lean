import Mathlib.Algebra.Order.Ring.Nat
import Mathlib.Data.Finset.Card
import Multistage.Numbering

/-!
What a numbering by first appearance is: the distinct items are the list without its repetitions,
and an item's number is its place among them. Hence the numbers do not depend on what the items
are, only on which of them are equal.
-/

namespace Multistage.Numbering

variable {α β : Type} [BEq α] [LawfulBEq α] [BEq β] [LawfulBEq β]

section Repetitions

theorem eraseDups_append_singleton (seen : List α) (item : α) :
    (seen ++ [item]).eraseDups =
      if item ∈ seen then seen.eraseDups else seen.eraseDups ++ [item] := by
  rw [List.eraseDups_append]
  by_cases known : item ∈ seen
  · simp [known, List.removeAll]
  · simp [known, List.removeAll, List.eraseDups_cons]

theorem idxOf_eraseDups_append (seen later : List α) (item : α) (known : item ∈ seen) :
    (seen ++ later).eraseDups.idxOf item = seen.eraseDups.idxOf item := by
  rw [List.eraseDups_append, List.idxOf_append, if_pos (List.mem_eraseDups.mpr known)]

theorem nodup_eraseDups (items : List α) : items.eraseDups.Nodup := by
  induction items using List.reverseRecOn with
  | nil => simp
  | append_singleton seen item ih =>
      rw [eraseDups_append_singleton]
      split
      · exact ih
      · rename_i fresh
        rw [List.nodup_append]
        refine ⟨ih, by simp, ?_⟩
        rintro other known _ same rfl
        simp_all [List.mem_eraseDups]

theorem eraseDups_of_nodup (items : List α)
    (nodup : items.Nodup) : items.eraseDups = items := by
  induction items with
  | nil => rfl
  | cons item later ih =>
      obtain ⟨fresh, nodupLater⟩ := List.nodup_cons.mp nodup
      have kept : later.filter (fun other => !other == item) = later := by
        rw [List.filter_eq_self]
        intro other member
        have different : other ≠ item := fun same => fresh (same ▸ member)
        simp [different]
      rw [List.eraseDups_cons, kept, ih nodupLater]

theorem eraseDups_map_of_injOn (label : α → β) (items : List α)
    (injective : ∀ first ∈ items, ∀ second ∈ items, label first = label second → first = second) :
    (items.map label).eraseDups = items.eraseDups.map label := by
  induction items using List.reverseRecOn with
  | nil => rfl
  | append_singleton seen item ih =>
      have earlier := ih fun first inFirst second inSecond =>
        injective first (by simp [inFirst]) second (by simp [inSecond])
      have known : label item ∈ seen.map label ↔ item ∈ seen := by
        rw [List.mem_map]
        constructor
        · rintro ⟨other, present, same⟩
          rwa [← injective other (by simp [present]) item (by simp) same]
        · exact fun present => ⟨item, present, rfl⟩
      rw [List.map_append, List.map_singleton, eraseDups_append_singleton,
        eraseDups_append_singleton, earlier]
      by_cases present : item ∈ seen
      · rw [if_pos present, if_pos (known.mpr present)]
      · rw [if_neg present, if_neg (mt known.mp present), List.map_append, List.map_singleton]

theorem idxOf_map_of_injOn (label : α → β) (items : List α) (item : α)
    (injective : ∀ other ∈ items, label other = label item → other = item) :
    (items.map label).idxOf (label item) = items.idxOf item := by
  induction items with
  | nil => rfl
  | cons first later ih =>
      rw [List.map_cons, List.idxOf_cons, List.idxOf_cons]
      by_cases same : first = item
      · simp [same]
      · have different : label first ≠ label item := fun equal =>
          same (injective first (by simp) equal)
        rw [ih fun other present => injective other (by simp [present]),
          beq_false_of_ne different, beq_false_of_ne same]

theorem find?_flatten_eraseDups (check : α → Bool) (blocks : List (List α)) :
    blocks.eraseDups.flatten.find? check = blocks.flatten.find? check := by
  induction blocks using List.reverseRecOn with
  | nil => rfl
  | append_singleton seen block ih =>
      rw [eraseDups_append_singleton, List.flatten_append, List.find?_append, ← ih]
      split
      · rename_i known
        cases found : seen.eraseDups.flatten.find? check with
        | some item => rfl
        | none =>
            -- The block has been searched before, and in vain.
            rw [List.find?_eq_none] at found
            rw [Option.none_or, eq_comm, List.find?_eq_none]
            intro item inside
            apply found item
            rw [List.mem_flatten]
            exact ⟨block, List.mem_eraseDups.mpr known, by simpa using inside⟩
      · rw [List.flatten_append, List.find?_append]

end Repetitions

section Fold

variable [Hashable α]

structure Progress.Covers (progress : Progress α) (seen : List α) : Prop where
  distinct : progress.distinct.toList = seen.eraseDups
  index : progress.index.toList = seen.map (seen.eraseDups.idxOf ·)
  numbers : ∀ item, progress.numbers[item]? =
    if item ∈ seen then some (seen.eraseDups.idxOf item) else none

theorem Progress.Covers.start : Progress.Covers (Progress.start : Progress α) [] := by
  constructor
  · rfl
  · rfl
  · intro item
    simp [Progress.start]

theorem Progress.Covers.size {progress : Progress α} {seen : List α}
    (covers : progress.Covers seen) : progress.distinct.size = seen.eraseDups.length := by
  rw [← covers.distinct, Array.length_toList]

theorem Progress.Covers.add {progress : Progress α} {seen : List α}
    (covers : progress.Covers seen) (item : α) :
    (progress.add item).Covers (seen ++ [item]) := by
  have earlier : seen.map ((seen ++ [item]).eraseDups.idxOf ·) =
      seen.map (seen.eraseDups.idxOf ·) :=
    List.map_congr_left fun other known => idxOf_eraseDups_append seen [item] other known
  have looked := covers.numbers item
  by_cases known : item ∈ seen
  · have same : (seen ++ [item]).eraseDups = seen.eraseDups := by
      rw [eraseDups_append_singleton, if_pos known]
    rw [if_pos known] at looked
    simp only [Progress.add, looked]
    constructor
    · rw [same, covers.distinct]
    · simp [same, covers.index]
    · intro other
      rw [same, covers.numbers other]
      by_cases equal : other = item
      · simp [equal, known]
      · simp [equal]
  · have longer : (seen ++ [item]).eraseDups = seen.eraseDups ++ [item] := by
      rw [eraseDups_append_singleton, if_neg known]
    have fresh : (seen.eraseDups ++ [item]).idxOf item = seen.eraseDups.length := by
      rw [List.idxOf_append, if_neg (by simpa [List.mem_eraseDups] using known)]
      simp
    rw [if_neg known] at looked
    simp only [Progress.add, looked]
    constructor
    · rw [longer, Array.toList_push, covers.distinct]
    · rw [List.map_append, earlier, Array.toList_push, covers.index, longer]
      simp [fresh, covers.size]
    · intro other
      rw [Std.HashMap.getElem?_insert, covers.numbers other, covers.size]
      by_cases equal : item = other
      · subst other
        simp [longer, fresh]
      · by_cases old : other ∈ seen
        · simp [equal, old, idxOf_eraseDups_append seen [item] other old]
        · simp [equal, old, Ne.symm equal]

theorem covers_foldl (items seen : List α) (progress : Progress α)
    (covers : progress.Covers seen) :
    (items.foldl Progress.add progress).Covers (seen ++ items) := by
  induction items generalizing seen progress with
  | nil => simpa using covers
  | cons item later ih => simpa using ih (seen ++ [item]) _ (covers.add item)

theorem ofList_distinct (items : List α) : (ofList items).distinct = items.eraseDups := by
  simpa [ofList] using (covers_foldl items [] _ Progress.Covers.start).distinct

theorem ofList_index (items : List α) :
    (ofList items).index = items.map (items.eraseDups.idxOf ·) := by
  simpa [ofList] using (covers_foldl items [] _ Progress.Covers.start).index

end Fold

section Laws

variable [Hashable α] [Hashable β]

theorem length_index (items : List α) : (ofList items).index.length = items.length := by
  simp [ofList_index]

theorem index_of_nodup (items : List α)
    (nodup : items.Nodup) : (ofList items).index = List.range items.length := by
  rw [ofList_index, eraseDups_of_nodup items nodup]
  apply List.ext_getElem
  · simp
  · intro place inside _
    rw [List.getElem_map, List.getElem_range, nodup.idxOf_getElem]

theorem mem_distinct (items : List α) (item : α) :
    item ∈ (ofList items).distinct ↔ item ∈ items := by
  rw [ofList_distinct, List.mem_eraseDups]

theorem nodup_distinct (items : List α) : (ofList items).distinct.Nodup := by
  rw [ofList_distinct]
  exact nodup_eraseDups items

theorem length_distinct [DecidableEq α] (items : List α) :
    (ofList items).distinct.length = items.toFinset.card := by
  rw [← List.toFinset_card_of_nodup (nodup_distinct items)]
  congr 1
  ext item
  simp [mem_distinct]

theorem getElem?_distinct_of_index (items : List α) (place number : Nat)
    (numbered : (ofList items).index[place]? = some number) :
    (ofList items).distinct[number]? = items[place]? := by
  rw [ofList_index, List.getElem?_map, Option.map_eq_some_iff] at numbered
  obtain ⟨item, found, rfl⟩ := numbered
  have member : item ∈ items.eraseDups := List.mem_eraseDups.mpr (List.mem_of_getElem? found)
  rw [ofList_distinct, found, List.getElem?_eq_getElem (List.idxOf_lt_length_of_mem member),
    List.getElem_idxOf]

theorem map_getD_index (items : List α) (fallback : α) :
    (ofList items).index.map (fun number => (ofList items).distinct.getD number fallback) =
      items := by
  rw [ofList_index, ofList_distinct, List.map_map]
  conv => rhs; rw [← List.map_id items]
  apply List.map_congr_left
  intro item present
  have member : item ∈ items.eraseDups := List.mem_eraseDups.mpr present
  simp [List.getD, List.getElem?_eq_getElem (List.idxOf_lt_length_of_mem member)]

theorem lt_length_distinct_of_mem_index (items : List α) (number : Nat)
    (member : number ∈ (ofList items).index) : number < (ofList items).distinct.length := by
  rw [ofList_index, List.mem_map] at member
  obtain ⟨item, present, rfl⟩ := member
  rw [ofList_distinct]
  exact List.idxOf_lt_length_of_mem (List.mem_eraseDups.mpr present)

theorem ofList_map (label : α → β) (items : List α)
    (injective : ∀ first ∈ items, ∀ second ∈ items, label first = label second → first = second) :
    (ofList (items.map label)).index = (ofList items).index ∧
      (ofList (items.map label)).distinct = (ofList items).distinct.map label := by
  simp only [ofList_index, ofList_distinct, eraseDups_map_of_injOn label items injective,
    List.map_map, and_true]
  apply List.map_congr_left
  intro item present
  exact idxOf_map_of_injOn label items.eraseDups item fun other known =>
    injective other (List.mem_eraseDups.mp known) item present

end Laws

end Multistage.Numbering
