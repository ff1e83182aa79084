import Multistage.Proofs.Stack

/-!
Whether a map has tables for some widths, and what is wrong with the widths if it has none,
depends on the map only through its length.
-/

namespace Multistage.Layout

def ragged? (length : Nat) : List Nat → Option Fault
  | [] => none
  | width :: finer =>
      match ragged? length finer with
      | some fault => some fault
      | none =>
          if width < 64 ∧ 2 ^ width ∣ length / 2 ^ finer.sum then none
          else some (.ragged (length / 2 ^ finer.sum) width)

theorem stack_eq_error_iff (map : Table) (finer : List Nat) (fault : Fault) :
    stack map finer = .error fault ↔ ragged? map.length finer = some fault := by
  induction finer generalizing fault with
  | nil => simp [stack, ragged?]
  | cons width finer ih =>
      rw [stack, ragged?, bind_eq_error_iff, ih]
      cases stacked : stack map finer with
      | error cause => simp [(ih cause).mp stacked]
      | ok result =>
          obtain ⟨_, _, rfl⟩ := (stack_eq_ok_iff _ _ _).mp stacked
          have whole : ragged? map.length finer = none := by
            cases found : ragged? map.length finer with
            | none => rfl
            | some cause => simp [(ih cause).mpr found] at stacked
          simp only [whole, reduceCtorEq, false_or, Except.ok.injEq, exists_eq_left',
            bind_eq_error_iff, Table.level_eq_error_iff, length_below]
          split
          · rename_i aligned
            simp [aligned, pure, Except.pure]
          · rename_i misfit
            simp [misfit, pure, Except.pure, eq_comm]

theorem ofMap_eq_error_congr (left right : Table) (same : left.length = right.length)
    (widths : List Nat) (width : ClassWidth) (fault : Fault) :
    ofMap left widths width = .error fault ↔ ofMap right widths width = .error fault := by
  cases widths with
  | nil => simp only [ofMap, List.isEmpty_iff_length_eq_zero, same]
  | cons coarsest finer =>
      rw [ofMap_cons, ofMap_cons]
      simp only [← List.length_eq_zero_iff, same]
      split_ifs
      · rfl
      · rfl
      · rfl
      · rw [map_eq_error_iff, map_eq_error_iff, stack_eq_error_iff, stack_eq_error_iff, same]

theorem Fits.congr {left right : Table} (same : left.length = right.length) {coarsest : Nat}
    {finer : List Nat} {width : ClassWidth} (fits : Fits left coarsest finer width) :
    Fits right coarsest finer width := by
  have positive := List.length_pos_of_ne_nil fits.nonempty
  refine ⟨List.ne_nil_of_length_pos (by omega), ?_, fits.wholeUnits, fits.narrow, ?_⟩
  · rw [← same, fits.total]
  · rw [← same]
    exact fits.aligned

theorem exists_ofMap_congr (left right : Table) (same : left.length = right.length)
    (widths : List Nat) (width : ClassWidth) :
    (∃ layout, ofMap left widths width = .ok layout) ↔
      ∃ layout, ofMap right widths width = .ok layout := by
  simp only [ofMap_eq_ok_iff]
  constructor
  · rintro ⟨_, coarsest, finer, rfl, fits, _⟩
    exact ⟨_, coarsest, finer, rfl, fits.congr same, rfl⟩
  · rintro ⟨_, coarsest, finer, rfl, fits, _⟩
    exact ⟨_, coarsest, finer, rfl, fits.congr same.symm, rfl⟩

end Multistage.Layout
