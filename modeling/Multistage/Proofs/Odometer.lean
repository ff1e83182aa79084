import Mathlib.Algebra.Order.BigOperators.Group.List
import Mathlib.Data.Nat.Choose.Sum
import Multistage.Proofs.Search
import Multistage.Record

/-!
An odometer runs through all vectors of digits, and among them through the candidates of a search,
in the order in which the search tries them.
-/

namespace Multistage

namespace Odometer

/-- The last digit that is not yet at the top goes up by one, and those after it start again. With
all digits at the top the odometer stands still. -/
def advance (top : Nat) : List Nat → Option (List Nat)
  | [] => none
  | digit :: later =>
      match advance top later with
      | some next => some (digit :: next)
      | none =>
          if digit < top then some ((digit + 1) :: List.replicate later.length 0) else none

def remaining (top : Nat) : List Nat → Nat
  | [] => 0
  | digit :: later => (top - digit) * (top + 1) ^ later.length + remaining top later

theorem remaining_lt (top : Nat) (digits : List Nat) :
    remaining top digits < (top + 1) ^ digits.length := by
  induction digits with
  | nil => exact Nat.one_pos
  | cons digit later ih =>
      have first := Nat.mul_le_mul_right ((top + 1) ^ later.length) (Nat.sub_le top digit)
      rw [remaining, List.length_cons, Nat.pow_succ, Nat.mul_succ, Nat.mul_comm _ top]
      omega

theorem advance_cons_eq_some_iff (top digit : Nat) (later next : List Nat) :
    advance top (digit :: later) = some next ↔
      (∃ following, advance top later = some following ∧ digit :: following = next) ∨
        advance top later = none ∧ digit < top ∧
          (digit + 1) :: List.replicate later.length 0 = next := by
  rw [advance]
  cases advance top later with
  | some following => simp
  | none => simp

theorem length_advance (top : Nat) (digits next : List Nat)
    (advanced : advance top digits = some next) : next.length = digits.length := by
  induction digits generalizing next with
  | nil => simp [advance] at advanced
  | cons digit later ih =>
      rcases (advance_cons_eq_some_iff _ _ _ _).mp advanced with
        ⟨following, moved, rfl⟩ | ⟨_, _, rfl⟩
      · simp [ih following moved]
      · simp

theorem remaining_advance (top : Nat) (digits next : List Nat)
    (advanced : advance top digits = some next) : remaining top next < remaining top digits := by
  induction digits generalizing next with
  | nil => simp [advance] at advanced
  | cons digit later ih =>
      rcases (advance_cons_eq_some_iff _ _ _ _).mp advanced with
        ⟨following, moved, rfl⟩ | ⟨_, room, rfl⟩
      · have fewer := ih following moved
        rw [remaining, remaining, length_advance top later following moved]
        omega
      · have restarted := remaining_lt top (List.replicate later.length 0)
        have split : top - digit = top - (digit + 1) + 1 := by omega
        rw [List.length_replicate] at restarted
        rw [remaining, remaining, List.length_replicate, split, Nat.add_mul, Nat.one_mul]
        omega

def readings (top : Nat) (digits : List Nat) : List (List Nat) :=
  digits :: match _ : advance top digits with
    | none => []
    | some next => readings top next
termination_by remaining top digits
decreasing_by exact remaining_advance top digits next ‹_›

theorem readings_of_none (top : Nat) (digits : List Nat) (still : advance top digits = none) :
    readings top digits = [digits] := by
  rw [readings]
  split
  · rfl
  · rename_i next advanced
    simp [still] at advanced

theorem readings_of_some (top : Nat) (digits next : List Nat)
    (advanced : advance top digits = some next) :
    readings top digits = digits :: readings top next := by
  rw [readings]
  split
  · rename_i still
    simp [still] at advanced
  · rename_i other same
    rw [advanced] at same
    rw [Option.some.inj same]

theorem readings_cons (top digit : Nat) (later : List Nat) :
    readings top (digit :: later) =
      (readings top later).map (digit :: ·) ++
        if digit < top then
          readings top ((digit + 1) :: List.replicate later.length 0)
        else [] := by
  induction later using readings.induct top with
  | case1 later ih =>
      cases moved : advance top later with
      | some next =>
          have advanced : advance top (digit :: later) = some (digit :: next) := by
            rw [advance, moved]
          rw [readings_of_some _ _ _ advanced, readings_of_some _ _ _ moved, ih next moved,
            length_advance top later next moved]
          rfl
      | none =>
          rw [readings_of_none _ _ moved]
          split
          · rename_i room
            have advanced : advance top (digit :: later) =
                some ((digit + 1) :: List.replicate later.length 0) := by
              rw [advance, moved]
              exact if_pos room
            rw [readings_of_some _ _ _ advanced]
            rfl
          · rename_i full
            have still : advance top (digit :: later) = none := by
              rw [advance, moved]
              exact if_neg full
            rw [readings_of_none _ _ still]
            rfl

theorem readings_from (top count spare digit : Nat) (sum : digit + spare = top) :
    readings top (digit :: List.replicate count 0) =
      (List.range' digit (spare + 1)).flatMap fun first =>
        (readings top (List.replicate count 0)).map (first :: ·) := by
  induction spare generalizing digit with
  | zero =>
      have full : ¬ digit < top := by omega
      rw [readings_cons, if_neg full]
      simp
  | succ spare ih =>
      have room : digit < top := by omega
      rw [List.range'_succ, List.flatMap_cons, readings_cons, if_pos room, List.length_replicate,
        ih (digit + 1) (by omega)]

theorem readings_zeros_succ (top count : Nat) :
    readings top (List.replicate (count + 1) 0) =
      (List.range' 0 (top + 1)).flatMap fun first =>
        (readings top (List.replicate count 0)).map (first :: ·) :=
  readings_from top count top 0 (Nat.zero_add top)

theorem mem_readings (top count : Nat) (digits : List Nat) :
    digits ∈ readings top (List.replicate count 0) ↔
      digits.length = count ∧ ∀ digit ∈ digits, digit ≤ top := by
  induction count generalizing digits with
  | zero =>
      rw [List.replicate_zero, readings_of_none top [] rfl, List.mem_singleton,
        List.length_eq_zero_iff]
      constructor
      · rintro rfl
        exact ⟨rfl, by simp⟩
      · exact fun none => none.1
  | succ count ih =>
      simp only [readings_zeros_succ, List.mem_flatMap, List.mem_map, List.mem_range'_1, ih]
      constructor
      · rintro ⟨first, range, later, ⟨length, bound⟩, rfl⟩
        exact ⟨by simp [length], List.forall_mem_cons.mpr ⟨by omega, bound⟩⟩
      · rintro ⟨length, bound⟩
        obtain ⟨first, later, rfl⟩ := List.exists_cons_of_length_eq_add_one length
        rw [List.forall_mem_cons] at bound
        exact ⟨first, by omega, later, ⟨by simpa using length, bound.2⟩, rfl⟩

theorem pairwise_readings (top count : Nat) :
    (readings top (List.replicate count 0)).Pairwise (· < ·) := by
  induction count with
  | zero =>
      rw [List.replicate_zero, readings_of_none top [] rfl]
      exact List.pairwise_singleton _ _
  | succ count ih =>
      rw [readings_zeros_succ]
      exact pairwise_flatMap_cons _ _ List.pairwise_lt_range' fun _ _ => ih

def Accepted (total : Nat) (widths : List Nat) : Prop :=
  (∀ width ∈ widths.dropLast, width ≠ 0) ∧ widths.sum = total

instance (total : Nat) (widths : List Nat) : Decidable (Accepted total widths) :=
  inferInstanceAs (Decidable (_ ∧ _))

def selected (total count : Nat) : List (List Nat) :=
  (readings total (List.replicate count 0)).filter (Accepted total ·)

theorem selected_eq (total count : Nat) (some : 1 ≤ count) :
    selected total count = widthVectors count total := by
  rw [selected]
  -- Both lists increase, so that with the same members they are the same.
  have shown := (pairwise_readings total count).filter (Accepted total ·)
  have searched := pairwise_widthVectors count total
  refine List.Perm.eq_of_pairwise ?_ shown searched
    ((List.perm_ext_iff_of_nodup shown.nodup searched.nodup).mpr ?_)
  · intro left right _ _ less greater
    exact absurd greater (List.lt_asymm less)
  · intro widths
    rw [List.mem_filter, mem_readings, mem_widthVectors, decide_eq_true_iff]
    constructor
    · rintro ⟨⟨rfl, _⟩, positive, sum⟩
      exact ⟨⟨some, Nat.le_refl _, positive, sum⟩, rfl⟩
    · rintro ⟨⟨_, _, positive, sum⟩, length⟩
      refine ⟨⟨length, ?_⟩, positive, sum⟩
      intro width member
      rw [← sum]
      exact List.le_sum_of_mem member

end Odometer

theorem sum_choose_below (count total : Nat) :
    ((List.range' 1 total).map fun first => (total - first).choose count).sum =
      total.choose (count + 1) := by
  cases total with
  | zero => rfl
  | succ last =>
      calc ((List.range' 1 (last + 1)).map fun first => (last + 1 - first).choose count).sum
          = ∑ first ∈ Finset.range (last + 1), (last + 1 - 1 - first).choose count := by
            rw [← List.sum_toFinset _ List.nodup_range', List.toFinset_range'_1,
              Finset.sum_Ico_eq_sum_range]
            simp [Nat.sub_add_eq]
        _ = ∑ rest ∈ Finset.range (last + 1), rest.choose count :=
            Finset.sum_range_reflect (fun rest => rest.choose count) (last + 1)
        _ = ∑ rest ∈ Finset.Icc count last, rest.choose count := by
            symm
            apply Finset.sum_subset
            · intro rest member
              rw [Finset.mem_Icc] at member
              exact Finset.mem_range.mpr (by omega)
            · intro rest inRange outside
              rw [Finset.mem_range] at inRange
              rw [Finset.mem_Icc] at outside
              exact Nat.choose_eq_zero_of_lt (by omega)
        _ = (last + 1).choose (count + 1) := Nat.sum_Icc_choose last count

theorem length_widthVectors (count total : Nat) :
    (widthVectors (count + 1) total).length = total.choose count := by
  induction count generalizing total with
  | zero => simp [widthVectors]
  | succ count ih =>
      rw [widthVectors, List.length_flatMap, ← sum_choose_below]
      simp only [List.length_map, ih]

namespace Search

theorem trials_of_ofMap (map : Table) (partitions : Nat) (width : ClassWidth) (search : Search)
    (found : ofMap map partitions width = .ok search) :
    search.trials = (candidates partitions (addressBits map.length)).map (Trial.run map width) := by
  rw [ofMap] at found
  split_ifs at found
  cases best : Choice.ofTrials
      ((candidates partitions (addressBits map.length)).map (Trial.run map width)) with
  | none => simp [best] at found
  | some choice =>
      simp only [best, Except.ok.injEq] at found
      rw [← found]

end Search

namespace Record

def tried? : Record → Option (List Nat × Cost)
  | tried widths cost => some (widths, cost)
  | _ => none

theorem filterMap_tried?_records (search : Search) :
    search.records.filterMap tried? =
      search.trials.map fun trial => (trial.widths, trial.cost) := by
  have single (trial : Trial) :
      trial.records.filterMap tried? = [(trial.widths, trial.cost)] := by
    rw [Trial.records, Trial.causes]
    cases trial.outcome <;> rfl
  rw [Search.records, List.filterMap_append, List.filterMap_flatMap]
  simp only [single, ← List.map_eq_flatMap]
  exact List.append_nil _

end Record

namespace Search

/-- A search tries exactly the vectors that it selects from odometers with ever fewer digits, each
once and in the order in which they are shown, and tells what each of them costs. -/
theorem told_odometer (map : Table) (partitions : Nat) (width : ClassWidth) (nonempty : map ≠ [])
    (positive : 1 ≤ partitions) (few : partitions ≤ mostStages) :
    (told map partitions width).2.filterMap Record.tried? =
        ((List.range' 1 partitions).reverse.flatMap
          (Odometer.selected (addressBits map.length))).map (fun widths =>
            (widths, (Trial.run map width widths).cost)) ∧
      ((List.range' 1 partitions).reverse.flatMap
        (Odometer.selected (addressBits map.length))).Nodup ∧
      ∀ count, 1 ≤ count → (Odometer.selected (addressBits map.length) count).length =
        (addressBits map.length).choose (count - 1) := by
  have selected : (List.range' 1 partitions).reverse.flatMap
      (Odometer.selected (addressBits map.length)) =
        candidates partitions (addressBits map.length) := by
    apply List.flatMap_congr
    intro count member
    rw [List.mem_reverse, List.mem_range'_1] at member
    exact Odometer.selected_eq _ count member.1
  rw [selected]
  refine ⟨?_, (pairwise_candidates _ _).nodup, ?_⟩
  · obtain ⟨search, found, _⟩ := exists_chosen map partitions width nonempty positive few
    rw [told, found, Record.filterMap_tried?_records,
      trials_of_ofMap map partitions width search found, List.map_map]
    rfl
  · intro count some
    obtain ⟨fewer, rfl⟩ := Nat.exists_eq_add_of_le' some
    rw [Nat.add_sub_cancel, ← length_widthVectors, Odometer.selected_eq _ _ some]

theorem told_odometer_eight_values :
    ((told [0, 1, 0, 1, 0, 1, 2, 3] 2 .sixteen).2.filterMap Record.tried? =
        [([1, 2], .bytes 20), ([2, 1], .bytes 16), ([3, 0], .bytes 24), ([3], .bytes 16)]) ∧
      (Odometer.selected 3 2).length = 3 := by
  obtain ⟨sequence, _, count⟩ :=
    told_odometer [0, 1, 0, 1, 0, 1, 2, 3] 2 .sixteen (by decide) (by decide) (by decide)
  have total : addressBits [0, 1, 0, 1, 0, 1, 2, 3].length = 3 := by cbv
  have selected : (List.range' 1 2).reverse.flatMap (Odometer.selected 3) =
      [[1, 2], [2, 1], [3, 0], [3]] := by cbv
  rw [total] at sequence count
  refine ⟨?_, count 2 (by decide)⟩
  rw [sequence, selected]
  cbv

end Search

end Multistage
