import Mathlib.Algebra.Order.Ring.Nat
import Mathlib.Data.List.Basic
import Multistage.Widths

/-!
The vectors a search looks at are exactly the eligible ones, each once, and they come in the order
in which the search prefers them.
-/

namespace Multistage

theorem addressBits_le_iff (length bits : Nat) : addressBits length ≤ bits ↔ length ≤ 2 ^ bits := by
  rw [addressBits]
  split
  · rename_i single
    have positive := Nat.two_pow_pos bits
    constructor
    · intro _
      omega
    · intro _
      omega
  · rename_i several
    rw [Nat.succ_le_iff, Nat.log2_lt (by omega)]
    omega

theorem le_two_pow_addressBits (length : Nat) : length ≤ 2 ^ addressBits length :=
  (addressBits_le_iff length _).mp (Nat.le_refl _)

/-- Widths that a search may choose: at most `partitions` of them, which add up to `total`, with
no zero but perhaps the last. -/
structure Eligible (partitions total : Nat) (widths : List Nat) : Prop where
  nonempty : 1 ≤ widths.length
  few : widths.length ≤ partitions
  positive : ∀ width ∈ widths.dropLast, width ≠ 0
  total : widths.sum = total

/-- Longer vectors come first, vectors of one length in lexicographic order. -/
def Precedes (first second : List Nat) : Prop :=
  second.length < first.length ∨ (first.length = second.length ∧ first < second)

theorem eligible_cons_iff (count total first : Nat) (later : List Nat) (more : later ≠ []) :
    Eligible (count + 1) total (first :: later) ↔
      1 ≤ first ∧ first ≤ total ∧ Eligible count (total - first) later := by
  have laterLength := List.length_pos_of_ne_nil more
  constructor
  · rintro ⟨_, few, positive, sum⟩
    rw [List.dropLast_cons_of_ne_nil more, List.forall_mem_cons] at positive
    simp only [List.length_cons, List.sum_cons] at few sum
    exact ⟨by omega, by omega, laterLength, by omega, positive.2, by omega⟩
  · rintro ⟨lower, upper, _, few, positive, sum⟩
    refine ⟨by simp, by simpa using few, ?_, by rw [List.sum_cons]; omega⟩
    rw [List.dropLast_cons_of_ne_nil more, List.forall_mem_cons]
    exact ⟨by omega, positive⟩

theorem mem_widthVectors (count total : Nat) (widths : List Nat) :
    widths ∈ widthVectors count total ↔
      Eligible count total widths ∧ widths.length = count := by
  fun_induction widthVectors count total generalizing widths with
  | case1 total =>
      simp only [List.not_mem_nil, false_iff]
      rintro ⟨eligible, length⟩
      have nonempty := eligible.nonempty
      omega
  | case2 total =>
      rw [List.mem_singleton]
      constructor
      · rintro rfl
        exact ⟨⟨by simp, by simp, by simp, by simp⟩, rfl⟩
      · rintro ⟨eligible, length⟩
        obtain ⟨width, rfl⟩ := List.length_eq_one_iff.mp length
        simpa using eligible.total
  | case3 count total ih =>
      simp only [List.mem_flatMap, List.mem_map, List.mem_range'_1]
      constructor
      · rintro ⟨first, range, later, member, rfl⟩
        obtain ⟨eligible, length⟩ := (ih first later).mp member
        have more : later ≠ [] := List.ne_nil_of_length_pos (by omega)
        exact ⟨(eligible_cons_iff _ _ _ _ more).mpr ⟨by omega, by omega, eligible⟩,
          by simp [length]⟩
      · rintro ⟨eligible, length⟩
        obtain ⟨first, later, rfl⟩ := List.exists_cons_of_length_eq_add_one length
        have laterLength : later.length = count + 1 := by simpa using length
        have more : later ≠ [] := List.ne_nil_of_length_pos (by omega)
        obtain ⟨lower, upper, rest⟩ := (eligible_cons_iff _ _ _ _ more).mp eligible
        exact ⟨first, by omega, later, (ih first later).mpr ⟨rest, laterLength⟩, rfl⟩

theorem pairwise_flatMap_cons (firsts : List Nat) (later : Nat → List (List Nat))
    (increasing : firsts.Pairwise (· < ·))
    (ordered : ∀ first ∈ firsts, (later first).Pairwise (· < ·)) :
    (firsts.flatMap fun first => (later first).map (first :: ·)).Pairwise (· < ·) := by
  rw [List.pairwise_flatMap]
  constructor
  · intro first member
    rw [List.pairwise_map]
    exact (ordered first member).imp fun less => List.cons_lt_cons_iff.mpr (Or.inr ⟨rfl, less⟩)
  · refine increasing.imp ?_
    intro first second less left leftMember right rightMember
    obtain ⟨leftLater, _, rfl⟩ := List.mem_map.mp leftMember
    obtain ⟨rightLater, _, rfl⟩ := List.mem_map.mp rightMember
    exact List.cons_lt_cons_iff.mpr (Or.inl less)

theorem pairwise_widthVectors (count total : Nat) :
    (widthVectors count total).Pairwise (· < ·) := by
  fun_induction widthVectors count total with
  | case1 total => exact List.Pairwise.nil
  | case2 total => exact List.pairwise_singleton _ _
  | case3 count total ih =>
      exact pairwise_flatMap_cons _ _ List.pairwise_lt_range' fun first _ => ih first

theorem mem_candidates (partitions total : Nat) (widths : List Nat) :
    widths ∈ candidates partitions total ↔ Eligible partitions total widths := by
  simp only [candidates, List.mem_flatMap, List.mem_reverse, List.mem_range'_1, mem_widthVectors]
  constructor
  · rintro ⟨count, range, ⟨nonempty, few, positive, sum⟩, length⟩
    exact ⟨nonempty, by omega, positive, sum⟩
  · rintro ⟨nonempty, few, positive, sum⟩
    exact ⟨widths.length, by omega, ⟨nonempty, Nat.le_refl _, positive, sum⟩, rfl⟩

theorem pairwise_candidates (partitions total : Nat) :
    (candidates partitions total).Pairwise Precedes := by
  rw [candidates, List.pairwise_flatMap, List.pairwise_reverse]
  constructor
  · intro count _
    refine (pairwise_widthVectors count total).imp_of_mem ?_
    intro first second firstMember secondMember less
    have firstLength := ((mem_widthVectors _ _ _).mp firstMember).2
    have secondLength := ((mem_widthVectors _ _ _).mp secondMember).2
    exact Or.inr ⟨by omega, less⟩
  · have increasing : (List.range' 1 partitions).Pairwise (· < ·) := List.pairwise_lt_range'
    refine increasing.imp ?_
    intro fewer more less first firstMember second secondMember
    have firstLength := ((mem_widthVectors _ _ _).mp firstMember).2
    have secondLength := ((mem_widthVectors _ _ _).mp secondMember).2
    exact Or.inl (by omega)

theorem Precedes.asymm {first second : List Nat} (before : Precedes first second) :
    ¬ Precedes second first := by
  rintro (shorter | ⟨_, greater⟩)
  · rcases before with longer | ⟨length, _⟩ <;> omega
  · rcases before with longer | ⟨_, less⟩
    · omega
    · exact List.lt_asymm less greater

instance : Std.Irrefl Precedes :=
  ⟨fun _ before => before.asymm before⟩

end Multistage
