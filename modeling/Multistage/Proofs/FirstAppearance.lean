import Multistage.Proofs.Deduplicated

/-!
A numbering by first appearance told by its properties, which no other numbering of the same list
has. So a deduplicated table is told by what holds of its index and of its stored blocks.
-/

namespace Multistage

namespace Numbering

variable {α : Type}

/-- Different items are numbered in the order in which the list first shows them. -/
structure ByFirstAppearance (index : List Nat) (distinct items : List α) : Prop where
  count : index.length = items.length
  nodup : distinct.Nodup
  refers : ∀ place number : Nat, index[place]? = some number → distinct[number]? = items[place]?
  used : ∀ number < distinct.length, number ∈ index
  ordered : ∀ place number : Nat, index[place]? = some number →
    number = 0 ∨ ∃ earlier < place, ∃ other, index[earlier]? = some other ∧ number ≤ other + 1

variable [BEq α] [LawfulBEq α]

structure Shows (index : List Nat) (distinct items : List α) (places limit : Nat) : Prop where
  inside : limit ≤ distinct.length
  items : (items.take places).eraseDups = distinct.take limit
  numbers : ∀ number, number ∈ index.take places ↔ number < limit

section Unique

variable {index : List Nat} {distinct items : List α} {place limit : Nat}

theorem Shows.mem_iff (shows : Shows index distinct items place limit) (nodup : distinct.Nodup)
    (number : Nat) (known : number < distinct.length) :
    distinct[number] ∈ items.take place ↔ number < limit := by
  have inside := shows.inside
  rw [← List.mem_eraseDups, shows.items, List.mem_take_iff_getElem]
  constructor
  · rintro ⟨other, below, same⟩
    rw [nodup.getElem_inj_iff] at same
    omega
  · exact fun below => ⟨number, by omega, rfl⟩

omit [LawfulBEq α] in
theorem Shows.le_limit (shows : Shows index distinct items place limit)
    (numbers : ByFirstAppearance index distinct items) (number : Nat)
    (found : index[place]? = some number) : number ≤ limit := by
  rcases numbers.ordered place number found with rfl | ⟨earlier, before, other, given, near⟩
  · exact Nat.zero_le _
  · have below := (shows.numbers other).mp (List.mem_of_getElem? (i := earlier)
      (by rwa [List.getElem?_take_of_lt before]))
    omega

theorem Shows.step (shows : Shows index distinct items place limit)
    (numbers : ByFirstAppearance index distinct items) (more : place < items.length) :
    ∃ next, Shows index distinct items (place + 1) next := by
  obtain ⟨number, found⟩ : ∃ number, index[place]? = some number :=
    ⟨_, List.getElem?_eq_getElem (by rw [numbers.count]; exact more)⟩
  have item := List.getElem?_eq_getElem more
  obtain ⟨known, same⟩ := List.getElem?_eq_some_iff.mp
    ((numbers.refers place number found).trans item)
  have atMost := shows.le_limit numbers number found
  have member := shows.mem_iff numbers.nodup number known
  have taken : index.take (place + 1) = index.take place ++ [number] := by
    rw [List.take_add_one, found, Option.toList_some]
  have shown : items.take (place + 1) = items.take place ++ [distinct[number]] := by
    rw [List.take_add_one, item, Option.toList_some, same]
  have given (other : Nat) :
      other ∈ index.take (place + 1) ↔ other < limit ∨ other = number := by
    rw [taken, List.mem_append, shows.numbers, List.mem_singleton]
  by_cases old : number < limit
  · refine ⟨limit, shows.inside, ?_, ?_⟩
    · rw [shown, eraseDups_append_singleton, if_pos (member.mpr old), shows.items]
    · intro other
      rw [given]
      omega
  · obtain rfl : number = limit := by omega
    refine ⟨number + 1, known, ?_, ?_⟩
    · rw [shown, eraseDups_append_singleton, if_neg (mt member.mp old), shows.items,
        List.take_add_one, List.getElem?_eq_getElem known, Option.toList_some]
    · intro other
      rw [given]
      omega

theorem ByFirstAppearance.exists_shows (numbers : ByFirstAppearance index distinct items)
    (places : Nat) (bound : places ≤ items.length) :
    ∃ limit, Shows index distinct items places limit := by
  induction places with
  | zero => exact ⟨0, Nat.zero_le _, by simp, by simp⟩
  | succ place ih =>
      obtain ⟨limit, shows⟩ := ih (by omega)
      exact shows.step numbers bound

theorem ByFirstAppearance.distinct_eq (numbers : ByFirstAppearance index distinct items) :
    distinct = items.eraseDups := by
  obtain ⟨limit, shows⟩ := numbers.exists_shows items.length (Nat.le_refl _)
  have enough : distinct.length ≤ limit := by
    rcases Nat.eq_zero_or_pos distinct.length with none | some
    · omega
    · have last := numbers.used (distinct.length - 1) (by omega)
      rw [← List.take_length (l := index), numbers.count, shows.numbers] at last
      omega
  have all := shows.items
  rw [List.take_length] at all
  rw [all, List.take_of_length_le enough]

theorem ByFirstAppearance.index_eq (numbers : ByFirstAppearance index distinct items) :
    index = items.map (items.eraseDups.idxOf ·) := by
  apply List.ext_getElem
  · rw [numbers.count, List.length_map]
  · intro place inside _
    have refers := numbers.refers place _ (List.getElem?_eq_getElem inside)
    rw [numbers.count] at inside
    obtain ⟨known, same⟩ := List.getElem?_eq_some_iff.mp
      (refers.trans (List.getElem?_eq_getElem inside))
    rw [List.getElem_map, ← same, ← numbers.distinct_eq, numbers.nodup.idxOf_getElem]

end Unique

theorem idxOf_eraseDups_take (items : List α) (count : Nat) (item : α)
    (shown : item ∈ items.take count) :
    items.eraseDups.idxOf item = (items.take count).eraseDups.idxOf item := by
  have whole := idxOf_eraseDups_append (items.take count) (items.drop count) item shown
  rwa [List.take_append_drop] at whole

theorem idxOf_eraseDups_le (items : List α) (place : Nat) (item : α)
    (found : items[place]? = some item) :
    items.eraseDups.idxOf item ≤ (items.take place).eraseDups.length := by
  have step : items.take (place + 1) = items.take place ++ [item] := by
    rw [List.take_add_one, found, Option.toList_some]
  have shown : item ∈ items.take (place + 1) := by
    rw [step]
    exact List.mem_append_right _ List.mem_cons_self
  have first := idxOf_eraseDups_take items (place + 1) item shown
  have inside := List.idxOf_lt_length_of_mem (List.mem_eraseDups.mpr shown)
  have atMost : (items.take (place + 1)).eraseDups.length ≤
      (items.take place).eraseDups.length + 1 := by
    rw [step, eraseDups_append_singleton]
    split <;> simp
  omega

variable [Hashable α]

theorem byFirstAppearance_ofList (items : List α) :
    ByFirstAppearance (ofList items).index (ofList items).distinct items := by
  refine ⟨length_index items, nodup_distinct items, getElem?_distinct_of_index items, ?_, ?_⟩
  · intro number known
    rw [ofList_distinct] at known
    rw [ofList_index, List.mem_map]
    exact ⟨items.eraseDups[number], List.mem_eraseDups.mp (List.getElem_mem known),
      (nodup_eraseDups items).idxOf_getElem number known⟩
  · intro place number numbered
    rw [ofList_index] at numbered ⊢
    rw [List.getElem?_map, Option.map_eq_some_iff] at numbered
    obtain ⟨item, found, rfl⟩ := numbered
    have atMost := idxOf_eraseDups_le items place item found
    rcases Nat.eq_zero_or_pos (items.eraseDups.idxOf item) with first | later
    · exact Or.inl first
    · -- The number before this one went to an item that was shown before.
      obtain ⟨number, next⟩ : ∃ number, items.eraseDups.idxOf item = number + 1 :=
        ⟨_, (Nat.sub_add_cancel later).symm⟩
      have inside : number < (items.take place).eraseDups.length := by omega
      have shown := List.mem_eraseDups.mp (List.getElem_mem inside)
      obtain ⟨earlier, bound, same⟩ := List.mem_take_iff_getElem.mp shown
      have numberOf : items.eraseDups.idxOf (items.take place).eraseDups[number] = number := by
        rw [idxOf_eraseDups_take items place _ shown, (nodup_eraseDups _).idxOf_getElem]
      refine Or.inr ⟨earlier, by omega, number, ?_, by omega⟩
      rw [List.getElem?_map, List.getElem?_eq_getElem (by omega), same, Option.map_some, numberOf]

theorem byFirstAppearance_iff (index : List Nat) (distinct items : List α) :
    ByFirstAppearance index distinct items ↔
      index = (ofList items).index ∧ distinct = (ofList items).distinct := by
  constructor
  · intro numbers
    rw [ofList_index, ofList_distinct]
    exact ⟨numbers.index_eq, numbers.distinct_eq⟩
  · rintro ⟨rfl, rfl⟩
    exact byFirstAppearance_ofList items

end Numbering

structure Deduplicated.Exact (level : Deduplicated) (table : Table) (size : Nat) : Prop where
  whole : size ∣ level.stored.length
  numbers :
    Numbering.ByFirstAppearance level.index (segments size level.stored) (segments size table)

namespace Table

theorem exact_iff (table : Table) (blockBits : Nat) (level : Deduplicated) :
    level.Exact table (2 ^ blockBits) ↔ level = table.condensed blockBits := by
  constructor
  · rintro ⟨whole, numbers⟩
    obtain ⟨index, distinct⟩ := (Numbering.byFirstAppearance_iff _ _ _).mp numbers
    have stored := flatten_segments (2 ^ blockBits) level.stored whole
    rw [distinct] at stored
    obtain ⟨_, _⟩ := level
    rw [condensed, ← index, stored]
  · rintro rfl
    refine ⟨?_, ?_⟩
    · rw [length_condensed_stored]
      exact Nat.dvd_mul_right _ _
    · rw [segments_condensed_stored]
      exact Numbering.byFirstAppearance_ofList _

/-- Only a table that does not consist of whole blocks, or is to be cut into blocks that are too
long, is refused. Otherwise deduplication is exact, and nothing else is. The level of a layout is
the same as long as 32 bits number the blocks. -/
theorem deduplicate_exact (table : Table) (blockBits : Nat) :
    (∀ fault, table.deduplicate blockBits = .error fault ↔
        (64 ≤ blockBits ∨ ¬ 2 ^ blockBits ∣ table.length) ∧
          fault = .ragged table.length blockBits) ∧
      ((∃ level, table.deduplicate blockBits = .ok level) ↔
        blockBits < 64 ∧ 2 ^ blockBits ∣ table.length) ∧
      (∀ level, table.deduplicate blockBits = .ok level ↔
        blockBits < 64 ∧ 2 ^ blockBits ∣ table.length ∧ level.Exact table (2 ^ blockBits)) ∧
      (∀ fault, table.level blockBits = .error fault ↔
        table.deduplicate blockBits = .error fault) ∧
      ((segments (2 ^ blockBits) table).toFinset.card ≤ 2 ^ 32 →
        table.level blockBits = table.deduplicate blockBits) := by
  refine ⟨?_, ?_, ?_, ?_, level_eq_deduplicate table blockBits⟩
  · intro fault
    rw [deduplicate_eq_error_iff, Decidable.not_and_iff_or_not, Nat.not_lt]
  · simp only [deduplicate_eq_ok_iff]
    constructor
    · rintro ⟨_, short, aligned, _⟩
      exact ⟨short, aligned⟩
    · rintro ⟨short, aligned⟩
      exact ⟨_, short, aligned, rfl⟩
  · intro level
    rw [deduplicate_eq_ok_iff, exact_iff]
  · intro fault
    exact map_eq_error_iff _ _ fault

end Table

end Multistage
