import Mathlib.Algebra.Order.Ring.Nat
import Mathlib.Data.List.Basic
import Multistage.Blocks

/-!
The consecutive aligned segments of a list. A table of whole blocks is cut into exactly these,
segments of segments are longer segments, and segments of equal length spell unambiguously.
-/

namespace Multistage

variable {α β : Type}

/-- The whole segments of `size` items; items after the last of them are left out. -/
def segments (size : Nat) (items : List α) : List (List α) :=
  (List.range (items.length / size)).map fun place => (items.drop (place * size)).take size

theorem length_segments (size : Nat) (items : List α) :
    (segments size items).length = items.length / size := by
  simp [segments]

theorem getElem?_segments (size place : Nat) (items : List α)
    (bound : place < items.length / size) :
    (segments size items)[place]? = some ((items.drop (place * size)).take size) := by
  simp [segments, bound]

theorem length_of_mem_segments (size : Nat) (items segment : List α)
    (member : segment ∈ segments size items) : segment.length = size := by
  simp only [segments, List.mem_map, List.mem_range] at member
  obtain ⟨place, bound, rfl⟩ := member
  have inside : (place + 1) * size ≤ items.length :=
    Nat.le_trans (Nat.mul_le_mul_right size bound) (Nat.div_mul_le_self _ _)
  rw [Nat.add_mul] at inside
  simp only [List.length_take, List.length_drop]
  omega

theorem mem_of_mem_segments (size : Nat) (items segment : List α) (item : α)
    (member : segment ∈ segments size items) (present : item ∈ segment) : item ∈ items := by
  simp only [segments, List.mem_map] at member
  obtain ⟨place, _, rfl⟩ := member
  exact List.mem_of_mem_drop (List.mem_of_mem_take present)

theorem segments_map (size : Nat) (label : α → β) (items : List α) :
    segments size (items.map label) = (segments size items).map (List.map label) := by
  simp [segments, List.map_drop, List.map_take]

theorem segments_drop (size count : Nat) (items : List α) :
    (segments size items).drop count = segments size (items.drop (count * size)) := by
  apply List.ext_getElem?
  intro place
  have remaining : (items.drop (count * size)).length / size = items.length / size - count := by
    rw [List.length_drop, Nat.mul_comm, Nat.sub_mul_div]
  rw [List.getElem?_drop]
  by_cases bound : place < items.length / size - count
  · rw [getElem?_segments _ _ _ (by omega), getElem?_segments _ _ _ (by omega), List.drop_drop,
      Nat.add_mul]
  · rw [List.getElem?_eq_none (by rw [length_segments]; omega),
      List.getElem?_eq_none (by rw [length_segments]; omega)]

theorem flatten_take_segments (size count : Nat) (items : List α)
    (bound : count ≤ items.length / size) :
    ((segments size items).take count).flatten = items.take (count * size) := by
  induction count with
  | zero => simp
  | succ count ih =>
      rw [List.take_add_one, getElem?_segments size count items (by omega), List.flatten_append,
        ih (by omega), Nat.add_mul, Nat.one_mul, List.take_add]
      simp

theorem flatten_segments (size : Nat) (items : List α) (aligned : size ∣ items.length) :
    (segments size items).flatten = items := by
  have whole := flatten_take_segments size (items.length / size) items (Nat.le_refl _)
  rwa [← length_segments size items, List.take_length, length_segments,
    Nat.div_mul_cancel aligned, List.take_length] at whole

theorem segments_mul (outer inner : Nat) (items : List α) :
    segments (outer * inner) items =
      (segments outer (segments inner items)).map List.flatten := by
  have count : items.length / (outer * inner) = (segments inner items).length / outer := by
    rw [length_segments, Nat.div_div_eq_div_mul, Nat.mul_comm]
  rw [segments, segments, List.map_map, count]
  apply List.map_congr_left
  intro place member
  have inside : (place + 1) * outer ≤ items.length / inner := by
    rw [← length_segments]
    exact Nat.le_trans (Nat.mul_le_mul_right outer (List.mem_range.mp member))
      (Nat.div_mul_le_self _ _)
  rw [Nat.add_mul, Nat.one_mul] at inside
  rw [Function.comp_apply, segments_drop, flatten_take_segments, Nat.mul_assoc]
  rw [List.length_drop, Nat.mul_comm _ inner, Nat.sub_mul_div]
  omega

theorem eq_of_flatMap_eq (word : α → List β) (size : Nat) (known : α → Prop)
    (uniform : ∀ item, known item → (word item).length = size)
    (injective : ∀ left right, known left → known right → word left = word right → left = right)
    (left right : List α) (leftKnown : ∀ item ∈ left, known item)
    (rightKnown : ∀ item ∈ right, known item) (length : left.length = right.length)
    (spelled : left.flatMap word = right.flatMap word) : left = right := by
  induction left generalizing right with
  | nil => exact (List.length_eq_zero_iff.mp length.symm).symm
  | cons item later ih =>
      cases right with
      | nil => simp at length
      | cons other rest =>
          have itemKnown := leftKnown item (by simp)
          have otherKnown := rightKnown other (by simp)
          rw [List.flatMap_cons, List.flatMap_cons] at spelled
          obtain ⟨heads, tails⟩ := List.append_inj spelled
            ((uniform item itemKnown).trans (uniform other otherKnown).symm)
          rw [injective item other itemKnown otherKnown heads,
            ih rest (fun one member => leftKnown one (by simp [member]))
              (fun one member => rightKnown one (by simp [member]))
              (by simpa using length) tails]

theorem eq_of_map_eq (label : α → β) (left right : List α)
    (injective : ∀ first ∈ left, ∀ second ∈ right, label first = label second → first = second)
    (same : left.map label = right.map label) : left = right := by
  induction left generalizing right with
  | nil => simpa [eq_comm] using same
  | cons first later ih =>
      cases right with
      | nil => simp at same
      | cons second rest =>
          obtain ⟨heads, tails⟩ := List.cons_eq_cons.mp same
          rw [injective first (by simp) second (by simp) heads,
            ih rest (fun one inLater other inRest =>
              injective one (by simp [inLater]) other (by simp [inRest])) tails]

theorem drop_take_flatten (size place : Nat) (words : List (List α)) (word : List α)
    (uniform : ∀ one ∈ words, one.length = size) (found : words[place]? = some word) :
    (words.flatten.drop (place * size)).take size = word := by
  induction words generalizing place with
  | nil => simp at found
  | cons first later ih =>
      have firstLength := uniform first (by simp)
      cases place with
      | zero =>
          obtain rfl : first = word := by simpa using found
          simp [← firstLength]
      | succ place =>
          rw [List.flatten_cons, Nat.add_mul, Nat.one_mul, Nat.add_comm, ← List.drop_drop,
            List.drop_left' firstLength]
          exact ih place (fun one member => uniform one (by simp [member])) (by simpa using found)

theorem length_flatten_of_uniform (size : Nat) (words : List (List α))
    (uniform : ∀ word ∈ words, word.length = size) :
    words.flatten.length = size * words.length := by
  have lengths := List.eq_replicate_of_mem (l := words.map List.length) (a := size) (by
    intro length member
    obtain ⟨word, present, rfl⟩ := List.mem_map.mp member
    exact uniform word present)
  rw [List.length_flatten, lengths, List.sum_replicate_nat, List.length_map, Nat.mul_comm]

theorem segments_flatten (size : Nat) (words : List (List α)) (positive : 0 < size)
    (uniform : ∀ word ∈ words, word.length = size) : segments size words.flatten = words := by
  have count : words.flatten.length / size = words.length := by
    rw [length_flatten_of_uniform size words uniform, Nat.mul_div_cancel_left _ positive]
  apply List.ext_getElem?
  intro place
  by_cases bound : place < words.length
  · have found := List.getElem?_eq_getElem bound
    rw [getElem?_segments _ _ _ (by omega), drop_take_flatten size place words _ uniform found,
      found]
  · rw [List.getElem?_eq_none (by rw [length_segments]; omega),
      List.getElem?_eq_none (by omega)]

theorem segments_two_range (count : Nat) :
    segments 2 (List.range (2 * count)) =
      (List.range count).map fun place => [2 * place, 2 * place + 1] := by
  rw [segments, List.length_range, Nat.mul_div_cancel_left _ Nat.two_pos]
  apply List.map_congr_left
  intro place member
  have inside := List.mem_range.mp member
  rw [List.range_eq_range', List.drop_range', List.take_range'_of_length_ge (by omega)]
  simp [List.range'_succ, Nat.mul_comm]

theorem segments_two_map (label : Nat → Nat) (count : Nat) :
    segments 2 ((List.range (2 * count)).map label) =
      (List.range count).map fun place => [label (2 * place), label (2 * place + 1)] := by
  rw [segments_map, segments_two_range, List.map_map]
  rfl

theorem Table.blocks_eq_range (size count : Nat) (table : Table) :
    table.blocks size count =
      (List.range count).map fun place => (table.drop (place * size)).take size := by
  induction count generalizing table with
  | zero => simp
  | succ count ih =>
      rw [Table.blocks_succ, ih, List.range_succ_eq_map, List.map_cons, List.map_map]
      simp [Function.comp_def, Nat.add_mul, Nat.add_comm]

theorem Table.blocks_eq_segments (size : Nat) (table : Table) :
    table.blocks size (table.length / size) = segments size table :=
  Table.blocks_eq_range size (table.length / size) table

end Multistage
