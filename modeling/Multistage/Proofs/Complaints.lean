import Mathlib.Algebra.Order.BigOperators.Group.List
import Multistage.Proofs.Feasible
import Multistage.Proofs.Search

/-!
Which widths a map has tables for, and the complaint about all others: nothing but the length of
the map counts. Widths without tables have the largest price that there is, all others a smaller
one.
-/

namespace Multistage.Layout

structure Feasible (length : Nat) (widths : List Nat) (width : ClassWidth) : Prop where
  some : 0 < length
  staged : widths ≠ []
  total : widths.sum = addressBits length
  whole : widths.length = 1 ∨
    width.unitExponent ≤ widths.getLastD 0 ∧ 2 ^ widths.tail.sum ∣ length

def entriesAt (length : Nat) (widths : List Nat) (place : Nat) : Nat :=
  length >>> (widths.drop (place + 1)).sum

def raggedAt? (length : Nat) (widths : List Nat) (place : Nat) : Option Fault :=
  let blockBits := widths.getD place 0
  if 2 ^ blockBits ∣ entriesAt length widths place then none
  else some (.ragged (entriesAt length widths place) blockBits)

/-- All that is wrong with widths for a map of some length. Of the widths under an index that
leave a block incomplete, the finest stands first. -/
def complaints (length : Nat) (widths : List Nat) (width : ClassWidth) : List Fault :=
  (if length = 0 then [.emptyMap] else []) ++
  (if widths = [] then [.partitionCount 0] else []) ++
  (if widths.sum = addressBits length then []
    else [.widthTotal widths.sum (addressBits length)]) ++
  (if widths.tail ≠ [] ∧ widths.getLastD 0 < width.unitExponent then
      [.blockTooNarrow (widths.getLastD 0) width.unitExponent]
    else []) ++
  (List.range' 1 (widths.length - 1)).reverse.filterMap (raggedAt? length widths)

theorem raggedAt?_one (length coarsest width : Nat) (finer : List Nat) :
    raggedAt? length (coarsest :: width :: finer) 1 =
      if 2 ^ width ∣ length / 2 ^ finer.sum then none
      else some (.ragged (length / 2 ^ finer.sum) width) := by
  rw [← Nat.shiftRight_eq_div_pow]
  rfl

theorem filterMap_raggedAt?_cons (length coarsest width : Nat) (finer : List Nat) :
    (List.range' 1 (width :: finer).length).reverse.filterMap
        (raggedAt? length (coarsest :: width :: finer)) =
      (List.range' 1 finer.length).reverse.filterMap (raggedAt? length (width :: finer)) ++
        (raggedAt? length (coarsest :: width :: finer) 1).toList := by
  -- The places of some widths are those one further in longer widths, after the first of these.
  have later (place : Nat) : raggedAt? length (coarsest :: width :: finer) (1 + place) =
      raggedAt? length (width :: finer) place := by
    rw [Nat.add_comm]
    rfl
  rw [List.length_cons, List.range'_succ, List.reverse_cons, List.filterMap_append,
    ← List.map_add_range', ← List.map_reverse, List.filterMap_map]
  congr 1
  exact List.filterMap_congr fun place _ => later place

theorem ragged?_eq_head? (length coarsest : Nat) (finer : List Nat)
    (narrow : ∀ one ∈ finer, one < 64) :
    ragged? length finer =
      ((List.range' 1 finer.length).reverse.filterMap
        (raggedAt? length (coarsest :: finer))).head? := by
  -- Widths are looked at from the finest on, and the first that does not fit ends the work.
  induction finer generalizing coarsest with
  | nil => rfl
  | cons width finer ih =>
      rw [List.forall_mem_cons] at narrow
      rw [filterMap_raggedAt?_cons, List.head?_append, ← ih width narrow.2, raggedAt?_one, ragged?]
      cases ragged? length finer with
      | some fault => rfl
      | none =>
          simp only [narrow.1, true_and, Option.none_or]
          split <;> rfl

theorem lt_of_total (map : Table) (coarsest : Nat) (finer : List Nat)
    (short : map.length < 2 ^ 32) (total : coarsest + finer.sum = addressBits map.length) :
    ∀ one ∈ finer, one < 64 := by
  intro one member
  have least := List.le_sum_of_mem member
  have most := (addressBits_le_iff map.length 32).mpr (Nat.le_of_lt short)
  omega

theorem complaints_cons (length coarsest : Nat) (finer : List Nat) (width : ClassWidth) :
    complaints length (coarsest :: finer) width =
      (if length = 0 then [.emptyMap] else []) ++
      (if coarsest + finer.sum = addressBits length then []
        else [.widthTotal (coarsest + finer.sum) (addressBits length)]) ++
      (if finer ≠ [] ∧ finer.getLastD coarsest < width.unitExponent then
          [.blockTooNarrow (finer.getLastD coarsest) width.unitExponent]
        else []) ++
      (List.range' 1 finer.length).reverse.filterMap (raggedAt? length (coarsest :: finer)) := by
  rw [complaints, if_neg (List.cons_ne_nil coarsest finer), List.append_nil, List.getLastD_cons]
  rfl

theorem failsWith_ofMap (map : Table) (widths : List Nat) (width : ClassWidth)
    (short : map.length < 2 ^ 32) :
    FailsWith (complaints map.length widths width) (ofMap map widths width) := by
  intro fault
  cases widths with
  | nil =>
      cases map with
      | nil => simp [ofMap, complaints]
      | cons first later => simp [ofMap, complaints]
  | cons coarsest finer =>
      rw [ofMap_cons, complaints_cons]
      by_cases empty : map = []
      · simp [empty]
      by_cases total : coarsest + finer.sum = addressBits map.length
      · by_cases narrow : finer ≠ [] ∧ finer.getLastD coarsest < width.unitExponent
        · rw [if_neg empty, if_neg (not_not_intro total), if_pos narrow, if_pos narrow]
          simp [empty, total]
        · rw [if_neg empty, if_neg (not_not_intro total), if_neg narrow, map_eq_error_iff,
            stack_eq_error_iff, ragged?_eq_head? _ coarsest finer
              (lt_of_total map coarsest finer short total)]
          simp only [List.length_eq_zero_iff, empty, if_false, total, if_true, narrow,
            List.nil_append]
      · simp [empty, total]

theorem fits_iff_feasible (map : Table) (coarsest : Nat) (finer : List Nat) (width : ClassWidth)
    (short : map.length < 2 ^ 32) :
    Fits map coarsest finer width ↔ Feasible map.length (coarsest :: finer) width := by
  have whole : (coarsest :: finer).length = 1 ∨
      width.unitExponent ≤ (coarsest :: finer).getLastD 0 ∧
        2 ^ (coarsest :: finer).tail.sum ∣ map.length ↔
      WholeUnits width finer ∧ 2 ^ finer.sum ∣ map.length := by
    rw [List.getLastD_cons, List.tail_cons, wholeUnits_iff width coarsest finer]
    by_cases under : finer = []
    · simp [under]
    · simp [under]
  constructor
  · intro fits
    exact ⟨List.length_pos_of_ne_nil fits.nonempty, List.cons_ne_nil _ _, fits.total,
      whole.mpr ⟨fits.wholeUnits, fits.aligned⟩⟩
  · intro feasible
    obtain ⟨wholeUnits, aligned⟩ := whole.mp feasible.whole
    have total : coarsest + finer.sum = addressBits map.length := feasible.total
    exact ⟨List.ne_nil_of_length_pos feasible.some, total, wholeUnits,
      lt_of_total map coarsest finer short total, aligned⟩

theorem exists_ofMap_iff_feasible (map : Table) (widths : List Nat) (width : ClassWidth)
    (short : map.length < 2 ^ 32) :
    (∃ layout, ofMap map widths width = .ok layout) ↔ Feasible map.length widths width := by
  simp only [ofMap_eq_ok_iff]
  constructor
  · rintro ⟨_, coarsest, finer, rfl, fits, _⟩
    exact (fits_iff_feasible map coarsest finer width short).mp fits
  · intro feasible
    obtain ⟨coarsest, finer, rfl⟩ := List.exists_cons_of_ne_nil feasible.staged
    exact ⟨_, coarsest, finer, rfl, (fits_iff_feasible map coarsest finer width short).mpr feasible,
      rfl⟩

theorem bytesFrom_le (map : Table) (width : ClassWidth) (length : Nat) (finer : List Nat)
    (atMost : length ≤ map.length) :
    bytesFrom map width length finer ≤ map.length * (8 * finer.length + 2) := by
  induction finer generalizing length with
  | nil =>
      have slots := Nat.mul_le_mul_left length (Search.slotBits_le width)
      simp only [bytesFrom, List.length_nil]
      omega
  | cons next finer ih =>
      -- What is stored below is no longer than the map, and an entry of four bytes counts as eight.
      have stored := Table.two_pow_mul_variety_le (below map finer) next
      rw [length_below] at stored
      have lower := ih (2 ^ next * (below map finer).variety next)
        (Nat.le_trans stored (Nat.div_le_self _ _))
      have entry : Stage.bytesFor ((below map finer).variety next) ≤ 4 := by
        rcases Stage.bytesFor_eq ((below map finer).variety next) with one | two | four <;> omega
      have index := Nat.mul_le_mul atMost entry
      have more : 8 * (finer.length + 1) + 2 = 8 * finer.length + 2 + 8 := by omega
      rw [bytesFrom, List.length_cons, more, Nat.mul_add]
      omega

theorem totalBytes_lt (map : Table) (widths : List Nat) (width : ClassWidth) (layout : Layout)
    (short : map.length < 2 ^ 32) (few : widths.length ≤ mostStages)
    (built : ofMap map widths width = .ok layout) : layout.totalBytes < 0xFFFFFFFFFFFFFFFF := by
  obtain ⟨coarsest, finer, rfl, fits, rfl⟩ := (ofMap_eq_ok_iff _ _ _ _).mp built
  rw [totalBytes_shaped _ _ _ _ fits.wholeUnits]
  have depth : finer.length < 26 := few
  calc bytesFrom map width (map.length / 2 ^ finer.sum) finer
      ≤ map.length * (8 * finer.length + 2) := bytesFrom_le _ _ _ _ (Nat.div_le_self _ _)
    _ ≤ 2 ^ 32 * 202 := Nat.mul_le_mul (Nat.le_of_lt short) (by omega)
    _ < 0xFFFFFFFFFFFFFFFF := by decide

theorem price_of_ofMap (map : Table) (widths : List Nat) (width : ClassWidth) (layout : Layout)
    (built : ofMap map widths width = .ok layout) :
    Trial.price map width widths = layout.totalBytes := by
  rw [Trial.price, (Trial.cost_run map width widths _).mpr ⟨layout, built, rfl⟩, Cost.toNat]

/-- Widths have tables exactly if they share out the address bits of the map and either make a
single stage or cut it into whole segments and whole storage units. Any others have the largest
price of all, and the first complaint about them is told. -/
theorem ofMap_feasible (map : Table) (widths : List Nat) (width : ClassWidth)
    (short : map.length < 2 ^ 32) (few : widths.length ≤ mostStages) :
    ((∃ layout, ofMap map widths width = .ok layout) ↔ Feasible map.length widths width) ∧
      (Trial.price map width widths = Cost.infeasible.toNat ↔
        ¬ Feasible map.length widths width) ∧
      (∀ layout, ofMap map widths width = .ok layout →
        Trial.price map width widths = layout.totalBytes ∧
          layout.totalBytes < Cost.infeasible.toNat) ∧
      ∀ fault, ofMap map widths width = .error fault ↔
        (complaints map.length widths width).head? = some fault := by
  have feasible := exists_ofMap_iff_feasible map widths width short
  refine ⟨feasible, ?_, ?_, failsWith_ofMap map widths width short⟩
  · rw [← feasible]
    constructor
    · rintro largest ⟨layout, built⟩
      have smaller := totalBytes_lt map widths width layout short few built
      rw [price_of_ofMap map widths width layout built] at largest
      exact absurd largest (Nat.ne_of_lt smaller)
    · intro none
      cases built : ofMap map widths width with
      | ok layout => exact absurd ⟨layout, built⟩ none
      | error fault =>
          rw [Trial.price, (Trial.cost_run_eq_infeasible_iff _ _ _).mpr ⟨fault, built⟩]
  · intro layout built
    exact ⟨price_of_ofMap map widths width layout built,
      totalBytes_lt map widths width layout short few built⟩

theorem ofMap_feasible_twelve_values :
    (∃ layout, ofMap (List.range 12) [2, 2] .sixteen = .ok layout ∧
      Trial.price (List.range 12) .sixteen [2, 2] = layout.totalBytes) ∧
      Trial.price (List.range 12) .sixteen [1, 1, 2] = Cost.infeasible.toNat ∧
      ofMap (List.range 12) [1, 1, 2] .sixteen = .error (.ragged 3 1) ∧
      ofMap (List.range 12) [1, 1, 2] .two = .error (.blockTooNarrow 2 4) ∧
      ofMap (List.range 12) [1, 1, 1] .two = .error (.widthTotal 3 4) ∧
      ofMap (List.range 12) [] .two = .error (.partitionCount 0) ∧
      ofMap [] [] .two = .error .emptyMap := by
  have short : (List.range 12).length < 2 ^ 32 := by decide
  obtain ⟨built, _, price, _⟩ := ofMap_feasible (List.range 12) [2, 2] .sixteen short (by decide)
  obtain ⟨_, largest, _, ragged⟩ :=
    ofMap_feasible (List.range 12) [1, 1, 2] .sixteen short (by decide)
  obtain ⟨layout, made⟩ := built.mpr ⟨by decide, by decide, by decide, by decide⟩
  refine ⟨⟨layout, made, (price layout made).1⟩, largest.mpr ?_, (ragged _).mpr (by decide),
    ((ofMap_feasible _ _ _ short (by decide)).2.2.2 _).mpr (by decide),
    ((ofMap_feasible _ _ _ short (by decide)).2.2.2 _).mpr (by decide),
    ((ofMap_feasible _ _ _ short (by decide)).2.2.2 _).mpr (by decide),
    ((ofMap_feasible _ _ _ (by decide) (by decide)).2.2.2 _).mpr (by decide)⟩
  intro feasible
  rcases feasible.whole with single | ⟨_, aligned⟩
  · simp at single
  · exact absurd aligned (by decide)

end Multistage.Layout
