import Multistage.Proofs.Search

/-!
A zero among the widths only costs bytes: its table lists block numbers in their order, or classes
in the order of their appearance. So the search loses nothing by leaving such widths out.
-/

namespace Multistage

theorem Table.variety_pos (map : Table) (bits : Nat) (nonempty : map ≠ [])
    (aligned : 2 ^ bits ∣ map.length) : 0 < map.variety bits := by
  have positive : 0 < map.length := List.length_pos_of_ne_nil nonempty
  have first : 0 < (segments (2 ^ bits) map).length := by
    rw [length_segments]
    exact Nat.div_pos (Nat.le_of_dvd positive aligned) (Nat.two_pow_pos bits)
  rw [Table.variety, Finset.card_pos, List.toFinset_nonempty_iff]
  exact List.ne_nil_of_length_pos first

theorem Table.variety_eq_one (map : Table) (bits : Nat) (whole : map.length = 2 ^ bits) :
    map.variety bits = 1 := by
  have single : (segments (2 ^ bits) map).length = 1 := by
    rw [length_segments, whole, Nat.div_self (Nat.two_pow_pos bits)]
  obtain ⟨segment, only⟩ := List.length_eq_one_iff.mp single
  rw [Table.variety, only]
  rfl

namespace Layout

theorem WholeUnits.filter {width : ClassWidth} (finer : List Nat) (units : WholeUnits width finer) :
    WholeUnits width (finer.filter (· ≠ 0)) ∧
      (finer.filter (· ≠ 0) = [] → finer ≠ [] → width.unitExponent = 0) := by
  induction finer with
  | nil => simp [WholeUnits]
  | cons next finer ih =>
      obtain ⟨kept, dropped⟩ := ih units.tail
      have room (none : finer.filter (· ≠ 0) = []) : width.unitExponent ≤ next := by
        cases finer with
        | nil => exact units
        | cons after finer =>
            rw [dropped none (List.cons_ne_nil _ _)]
            exact Nat.zero_le next
      by_cases zero : next = 0
      · subst next
        simp only [ne_eq, not_true_eq_false, decide_false, List.filter_cons, Bool.false_eq_true,
          if_false] at kept ⊢
        exact ⟨kept, fun none _ => Nat.le_zero.mp (room none)⟩
      · have filtered : (next :: finer).filter (· ≠ 0) = next :: finer.filter (· ≠ 0) := by
          simp [zero]
        rw [filtered]
        refine ⟨?_, by simp⟩
        cases rest : finer.filter (· ≠ 0) with
        | nil => exact room rest
        | cons after later =>
            rw [rest] at kept
            exact kept

theorem slotBits_of_unitExponent (width : ClassWidth) (unpacked : width.unitExponent = 0) :
    width.slotBits = 16 := by
  cases width <;> simp_all [ClassWidth.unitExponent, ClassWidth.slotBits, ClassWidth.isPacked]

theorem bytesFrom_zero_lt (map : Table) (width : ClassWidth) (length next : Nat)
    (finer : List Nat) (short : map.length < 2 ^ 32)
    (some : 0 < map.variety (next + finer.sum)) :
    bytesFrom map width length (next :: finer) <
      bytesFrom map width length (0 :: next :: finer) := by
  have bytes := Stage.one_le_bytesFor (map.variety (next + finer.sum))
  have more : 0 < map.variety (next + finer.sum) *
      Stage.bytesFor (map.variety (next + finer.sum)) := Nat.mul_pos some bytes
  simp only [bytesFrom_cons map _ _ _ _ short, List.sum_cons, Nat.zero_add, Nat.pow_zero,
    Nat.one_mul]
  omega

theorem bytesFrom_last_zero_lt (map : Table) (width : ClassWidth) (length : Nat)
    (unpacked : width.unitExponent = 0) (some : 0 < map.variety 0) :
    bytesFrom map width length [] < bytesFrom map width length [0] := by
  have bytes := Nat.mul_le_mul_left length (Stage.one_le_bytesFor (map.variety 0))
  simp only [bytesFrom, below, slotBits_of_unitExponent width unpacked, Nat.pow_zero, Nat.one_mul]
  omega

theorem sum_filter_ne_zero (widths : List Nat) : (widths.filter (· ≠ 0)).sum = widths.sum := by
  induction widths with
  | nil => rfl
  | cons width later ih =>
      by_cases zero : width = 0
      · simpa [zero] using ih
      · simpa [zero] using ih

theorem filter_zero_cons (widths : List Nat) :
    (0 :: widths).filter (· ≠ 0) = widths.filter (· ≠ 0) := by
  simp

theorem bytesFrom_filter (map : Table) (width : ClassWidth) (length : Nat) (finer : List Nat)
    (short : map.length < 2 ^ 32) (nonempty : map ≠ []) (aligned : 2 ^ finer.sum ∣ map.length)
    (units : WholeUnits width finer) :
    bytesFrom map width length (finer.filter (· ≠ 0)) ≤ bytesFrom map width length finer ∧
      (0 ∈ finer → bytesFrom map width length (finer.filter (· ≠ 0)) <
        bytesFrom map width length finer) := by
  induction finer generalizing length with
  | nil => simp
  | cons next finer ih =>
      have lower : 2 ^ finer.sum ∣ map.length := by
        rw [List.sum_cons, two_pow_add_dvd_iff] at aligned
        exact aligned.1
      by_cases zero : next = 0
      · subst next
        have less : bytesFrom map width length (finer.filter (· ≠ 0)) <
            bytesFrom map width length (0 :: finer) := by
          cases finer with
          | nil =>
              exact bytesFrom_last_zero_lt map width length (Nat.le_zero.mp units)
                (map.variety_pos 0 nonempty aligned)
          | cons after finer =>
              exact Nat.lt_of_le_of_lt (ih length lower units.tail).1
                (bytesFrom_zero_lt map width length after finer short
                  (map.variety_pos _ nonempty lower))
        rw [filter_zero_cons]
        exact ⟨Nat.le_of_lt less, fun _ => less⟩
      · have filtered : (next :: finer).filter (· ≠ 0) = next :: finer.filter (· ≠ 0) := by
          simp [zero]
        have later := ih (2 ^ next * map.variety (next + finer.sum)) lower units.tail
        rw [filtered, bytesFrom_cons _ _ _ _ _ short, bytesFrom_cons _ _ _ _ _ short,
          sum_filter_ne_zero]
        refine ⟨Nat.add_le_add_left later.1 _, fun member => Nat.add_lt_add_left (later.2 ?_) _⟩
        rcases List.mem_cons.mp member with same | member
        · exact absurd same.symm zero
        · exact member

def trimmed (widths : List Nat) : List Nat :=
  match widths.filter (· ≠ 0) with
  | [] => [0]
  | coarsest :: finer => coarsest :: finer

theorem sum_trimmed (widths : List Nat) : (trimmed widths).sum = widths.sum := by
  rw [← sum_filter_ne_zero widths, trimmed]
  split
  · rename_i none
    rw [none]
    rfl
  · rename_i kept
    rw [kept]

theorem eligible_trimmed (widths : List Nat) (partitions total : Nat) (nonempty : 1 ≤ widths.length)
    (few : widths.length ≤ partitions) (sum : widths.sum = total) :
    Eligible partitions total (trimmed widths) := by
  have shorter : (widths.filter (· ≠ 0)).length ≤ widths.length := List.length_filter_le _ _
  have sumTrimmed := sum_trimmed widths
  rw [trimmed] at sumTrimmed ⊢
  split at sumTrimmed
  · exact ⟨by simp, by simp; omega, by simp, by rw [sumTrimmed, sum]⟩
  · rename_i coarsest finer kept
    rw [kept] at shorter
    refine ⟨by simp, Nat.le_trans shorter few, ?_, by rw [sumTrimmed, sum]⟩
    intro width member
    have inFilter : width ∈ widths.filter (· ≠ 0) := kept ▸ List.mem_of_mem_dropLast member
    simpa using (List.mem_filter.mp inFilter).2

theorem Fits.length_eq_of_zero {map : Table} {finer : List Nat} {width : ClassWidth}
    (fits : Fits map 0 finer width) : map.length = 2 ^ finer.sum := by
  have positive : 0 < map.length := List.length_pos_of_ne_nil fits.nonempty
  have upper := le_two_pow_addressBits map.length
  rw [← fits.total, Nat.zero_add] at upper
  exact Nat.le_antisymm upper (Nat.le_of_dvd positive fits.aligned)

def TrimmedWithin (map : Table) (width : ClassWidth) (widths : List Nat) (count : Nat) : Prop :=
  ∃ less, (Trial.run map width (trimmed widths)).cost = .bytes less ∧ less ≤ count ∧
    (trimmed widths ≠ widths → less < count)

theorem trimmedWithin_single (map : Table) (width : ClassWidth) (finer : List Nat)
    (short : map.length < 2 ^ 32) (fits : Fits map 0 finer width)
    (none : finer.filter (· ≠ 0) = []) :
    TrimmedWithin map width (0 :: finer)
      (bytesFrom map width (map.length / 2 ^ finer.sum) finer) := by
  have filtered : trimmed (0 :: finer) = [0] := by
    rw [trimmed, filter_zero_cons, none]
  have total := fits.total
  have sum := sum_filter_ne_zero finer
  obtain ⟨atMost, less⟩ := bytesFrom_filter map width (map.length / 2 ^ finer.sum) finer
    short fits.nonempty fits.aligned fits.wholeUnits
  rw [none, List.sum_nil] at sum
  rw [none, ← sum, Nat.pow_zero, Nat.div_one] at atMost less
  rw [← sum] at total ⊢
  rw [TrimmedWithin, filtered]
  refine ⟨_, Trial.cost_run_cons map 0 [] width
    ⟨fits.nonempty, total, trivial, by simp, by simp⟩, by simpa using atMost, ?_⟩
  intro changed
  cases finer with
  | nil => exact absurd rfl changed
  | cons next finer =>
      have nextZero : next = 0 := by
        by_contra positive
        simp [positive] at none
      simpa using less (by simp [nextZero])

theorem trimmedWithin_zero (map : Table) (width : ClassWidth) (finer : List Nat)
    (short : map.length < 2 ^ 32) (fits : Fits map 0 finer width) (first : Nat) (later : List Nat)
    (kept : finer.filter (· ≠ 0) = first :: later) :
    TrimmedWithin map width (0 :: finer)
      (bytesFrom map width (map.length / 2 ^ finer.sum) finer) := by
  have filtered : trimmed (0 :: finer) = first :: later := by
    rw [trimmed, filter_zero_cons, kept]
  have whole := fits.length_eq_of_zero
  have total := fits.total
  have units := (WholeUnits.filter finer fits.wholeUnits).1
  have sum := sum_filter_ne_zero finer
  have atMost := (bytesFrom_filter map width (map.length / 2 ^ finer.sum) finer
    short fits.nonempty fits.aligned fits.wholeUnits).1
  rw [kept, List.sum_cons] at sum
  rw [kept] at units atMost
  rw [← sum] at whole total atMost ⊢
  have narrow : ∀ one ∈ later, one < 64 := by
    intro one member
    have inFilter : one ∈ finer.filter (· ≠ 0) := kept ▸ List.mem_cons_of_mem _ member
    exact fits.narrow one (List.mem_filter.mp inFilter).1
  have aligned : 2 ^ later.sum ∣ map.length := by
    rw [whole]
    exact Nat.pow_dvd_pow 2 (Nat.le_add_left _ _)
  -- With a zero in front, the first table has a single entry; without it, one for each block.
  have top : map.length / 2 ^ later.sum = 2 ^ first := by
    rw [whole, Nat.pow_add, Nat.mul_div_cancel _ (Nat.two_pow_pos _)]
  have smaller : bytesFrom map width (map.length / 2 ^ later.sum) later <
      bytesFrom map width (map.length / 2 ^ (first + later.sum)) finer := by
    refine Nat.lt_of_lt_of_le ?_ atMost
    have bytes := Stage.one_le_bytesFor 1
    rw [bytesFrom_cons map _ _ _ _ short, map.variety_eq_one _ whole, top, whole,
      Nat.div_self (Nat.two_pow_pos _), Nat.mul_one]
    omega
  rw [TrimmedWithin, filtered]
  exact ⟨_, Trial.cost_run_cons map first later width
    ⟨fits.nonempty, by omega, units.tail, narrow, aligned⟩, Nat.le_of_lt smaller,
    fun _ => smaller⟩

theorem trimmedWithin_pos (map : Table) (width : ClassWidth) (coarsest : Nat) (finer : List Nat)
    (short : map.length < 2 ^ 32) (fits : Fits map coarsest finer width)
    (positive : coarsest ≠ 0) :
    TrimmedWithin map width (coarsest :: finer)
      (bytesFrom map width (map.length / 2 ^ finer.sum) finer) := by
  have filtered : trimmed (coarsest :: finer) = coarsest :: finer.filter (· ≠ 0) := by
    simp [trimmed, positive]
  have sum := sum_filter_ne_zero finer
  have kept := (WholeUnits.filter finer fits.wholeUnits).1
  have narrow : ∀ one ∈ finer.filter (· ≠ 0), one < 64 := by
    intro one member
    exact fits.narrow one (List.mem_filter.mp member).1
  obtain ⟨atMost, less⟩ := bytesFrom_filter map width (map.length / 2 ^ finer.sum) finer
    short fits.nonempty fits.aligned fits.wholeUnits
  rw [TrimmedWithin, filtered]
  refine ⟨_, Trial.cost_run_cons map coarsest _ width ⟨fits.nonempty, by rw [sum, fits.total],
    kept, narrow, by rw [sum]; exact fits.aligned⟩, by rwa [sum], ?_⟩
  intro changed
  rw [sum]
  apply less
  by_contra absent
  apply changed
  rw [List.filter_eq_self.mpr]
  intro one member
  simpa using fun equal : one = 0 => absent (equal ▸ member)

theorem cost_trimmed (map : Table) (width : ClassWidth) (widths : List Nat) (count : Nat)
    (short : map.length < 2 ^ 32) (feasible : (Trial.run map width widths).cost = .bytes count) :
    TrimmedWithin map width widths count := by
  obtain ⟨coarsest, finer, rfl, fits, rfl⟩ := (Trial.cost_run_eq_bytes_iff _ _ _ _).mp feasible
  by_cases zero : coarsest = 0
  · subst coarsest
    cases kept : finer.filter (· ≠ 0) with
    | nil => exact trimmedWithin_single map width finer short fits kept
    | cons first later => exact trimmedWithin_zero map width finer short fits first later kept
  · exact trimmedWithin_pos map width coarsest finer short fits zero

theorem trimmed_of_sum_eq_zero (widths : List Nat) (none : widths.sum = 0) :
    trimmed widths = [0] := by
  have sum := sum_filter_ne_zero widths
  rw [trimmed]
  split
  · rfl
  · rename_i coarsest finer kept
    have member : coarsest ∈ widths.filter (· ≠ 0) := kept ▸ List.mem_cons_self
    have positive : coarsest ≠ 0 := by simpa using (List.mem_filter.mp member).2
    rw [kept, none, List.sum_cons] at sum
    omega

theorem zero_notMem_trimmed (widths : List Nat) (some : widths.sum ≠ 0) :
    0 ∉ trimmed widths := by
  have sum := sum_filter_ne_zero widths
  rw [trimmed]
  split
  · rename_i none
    rw [none] at sum
    exact absurd sum.symm some
  · rename_i coarsest finer kept
    rw [← kept]
    simp

end Layout

namespace Search

open Layout (trimmed)

theorem Chosen.trimmed_eq {map : Table} {partitions : Nat} {width : ClassWidth} {choice : Choice}
    (short : map.length < 2 ^ 32) (chosen : Chosen map partitions width choice) :
    trimmed choice.widths = choice.widths := by
  by_contra changed
  obtain ⟨less, feasible, _, cheaper⟩ :=
    Layout.cost_trimmed map width choice.widths _ short chosen.cost
  have eligible := Layout.eligible_trimmed choice.widths partitions _ chosen.eligible.nonempty
    chosen.eligible.few chosen.eligible.total
  have least := chosen.least _ eligible less feasible
  have dearer := cheaper changed
  omega

/-- No widths at all are cheaper than the choice, and it has a zero only for a single input. -/
theorem ofMap_cheapest_of_all (map : Table) (partitions : Nat) (width : ClassWidth)
    (nonempty : map ≠ []) (short : map.length < 2 ^ 32) (positive : 1 ≤ partitions)
    (few : partitions ≤ mostStages) :
    ∃ search, ofMap map partitions width = .ok search ∧
      (∀ widths : List Nat, 1 ≤ widths.length → widths.length ≤ partitions →
        Trial.price map width search.choice.widths ≤ Trial.price map width widths) ∧
      (map.length = 1 → search.choice.widths = [0]) ∧
      (map.length ≠ 1 → 0 ∉ search.choice.widths) := by
  obtain ⟨search, found, chosen⟩ := exists_chosen map partitions width nonempty positive few
  have finite := chosen.bytes_lt nonempty positive short
  refine ⟨search, found, ?_, ?_, ?_⟩
  · intro widths some atMost
    rw [chosen.price, Trial.price]
    cases cost : (Trial.run map width widths).cost with
    | infeasible => exact Nat.le_of_lt finite
    | bytes count =>
        obtain ⟨less, feasible, noDearer, _⟩ :=
          Layout.cost_trimmed map width widths count short cost
        obtain ⟨layout, built, _⟩ := (Trial.cost_run _ _ _ _).mp cost
        obtain ⟨coarsest, finer, rfl, fits, _⟩ := (Layout.ofMap_eq_ok_iff _ _ _ _).mp built
        have eligible := Layout.eligible_trimmed (coarsest :: finer) partitions _ some atMost
          ((List.sum_cons).trans fits.total)
        exact Nat.le_trans (chosen.least _ eligible less feasible) noDearer
  · intro single
    rw [← chosen.trimmed_eq short]
    apply Layout.trimmed_of_sum_eq_zero
    have atMost : addressBits map.length ≤ 0 := (addressBits_le_iff _ 0).mpr (by omega)
    rw [chosen.eligible.total]
    omega
  · intro several
    rw [← chosen.trimmed_eq short]
    apply Layout.zero_notMem_trimmed
    rw [chosen.eligible.total, ne_eq, ← Nat.le_zero, addressBits_le_iff]
    have some := List.length_pos_of_ne_nil nonempty
    omega

theorem ofMap_cheapest_of_all_zeros :
    (∃ search, ofMap [0, 0, 1, 1, 0, 0, 1, 1] 2 .sixteen = .ok search ∧
      Trial.price [0, 0, 1, 1, 0, 0, 1, 1] .sixteen search.choice.widths ≤
        Trial.price [0, 0, 1, 1, 0, 0, 1, 1] .sixteen [0, 3] ∧ 0 ∉ search.choice.widths) ∧
      ∃ search, ofMap [7] 3 .one = .ok search ∧
        Trial.price [7] .one search.choice.widths ≤ Trial.price [7] .one [0, 0, 0] ∧
        search.choice.widths = [0] := by
  obtain ⟨several, foundSeveral, cheapest, _, noZero⟩ := ofMap_cheapest_of_all
    [0, 0, 1, 1, 0, 0, 1, 1] 2 .sixteen (by decide) (by decide) (by decide) (by decide)
  obtain ⟨single, foundSingle, cheapestSingle, zero, _⟩ := ofMap_cheapest_of_all
    [7] 3 .one (by decide) (by decide) (by decide) (by decide)
  exact ⟨⟨several, foundSeveral, cheapest [0, 3] (by decide) (by decide), noZero (by decide)⟩,
    ⟨single, foundSingle, cheapestSingle [0, 0, 0] (by decide) (by decide), zero (by decide)⟩⟩

end Search

end Multistage
