import Multistage.Proofs.Feasible
import Multistage.Proofs.Search

/-!
Merging classes of a map: equal segments stay equal, so there are no more different ones, and no
table grows.
-/

namespace Multistage

theorem Table.variety_map_le (map : Table) (merge : Nat → Nat) (bits : Nat) :
    Table.variety (map.map merge) bits ≤ map.variety bits := by
  have image : ((segments (2 ^ bits) map).map (List.map merge)).toFinset =
      (segments (2 ^ bits) map).toFinset.image (List.map merge) := by
    ext segment
    simp
  rw [variety, variety, segments_map, image]
  exact Finset.card_image_le

theorem Stage.bytesFor_mono (fewer more : Nat) (atMost : fewer ≤ more) :
    bytesFor fewer ≤ bytesFor more := by
  simp only [bytesFor]
  split_ifs <;> omega

namespace Layout

structure Coarser (small large : Table) : Prop where
  length : small.length = large.length
  short : large.length < 2 ^ 32
  variety : ∀ bits, small.variety bits ≤ large.variety bits

theorem coarser_map (map : Table) (merge : Nat → Nat) (short : map.length < 2 ^ 32) :
    Coarser (map.map merge) map :=
  ⟨List.length_map merge, short, map.variety_map_le merge⟩

variable {small large : Table}

theorem Coarser.blocks (coarser : Coarser small large) (next : Nat) (finer : List Nat) :
    (below small finer).variety next ≤ (below large finer).variety next := by
  have short := coarser.short
  rw [variety_below _ _ _ (numbered_of_short small finer (by rw [coarser.length]; omega)),
    variety_below _ _ _ (numbered_of_short large finer (by omega))]
  exact coarser.variety _

theorem Coarser.stored (coarser : Coarser small large) (finer : List Nat) :
    List.Forall₂ (fun short long => short.length ≤ long.length)
      (storedTables small finer) (storedTables large finer) := by
  induction finer with
  | nil => exact List.Forall₂.nil
  | cons next finer ih =>
      refine List.Forall₂.cons ?_ ih
      rw [Table.length_condensed_stored, Table.length_condensed_stored]
      exact Nat.mul_le_mul_left _ (coarser.blocks _ _)

theorem Coarser.tables (coarser : Coarser small large) (coarsest : Nat) (finer : List Nat)
    (width : ClassWidth) :
    List.Forall₂ (fun short long => short.length ≤ long.length)
      (shaped small coarsest finer width).tables (shaped large coarsest finer width).tables := by
  refine List.Forall₂.cons ?_ (coarser.stored finer)
  rw [length_below, length_below, coarser.length]

theorem Coarser.stages (coarser : Coarser small large) (coarsest : Nat) (finer : List Nat)
    (width : ClassWidth) (units : WholeUnits width finer) :
    List.Forall₂ (fun narrow wide => narrow.entryBytes ≤ wide.entryBytes)
      (shaped small coarsest finer width).stages (shaped large coarsest finer width).stages := by
  rw [shaped, shaped, stagesOver_storedTables, stagesOver_storedTables]
  induction finer with
  | nil => exact List.Forall₂.cons (Nat.le_refl _) List.Forall₂.nil
  | cons next finer ih =>
      refine List.Forall₂.cons ?_ (ih units.tail)
      rw [entryBytes_stageAbove _ _ _ _ units, entryBytes_stageAbove _ _ _ _ units]
      exact Stage.bytesFor_mono _ _ (coarser.blocks _ _)

theorem Coarser.bytesFrom (coarser : Coarser small large) (width : ClassWidth)
    (finer : List Nat) (shorter longer : Nat) (atMost : shorter ≤ longer) :
    bytesFrom small width shorter finer ≤ bytesFrom large width longer finer := by
  induction finer generalizing shorter longer with
  | nil =>
      have slots := Nat.mul_le_mul_right width.slotBits atMost
      simp only [Layout.bytesFrom]
      omega
  | cons next finer ih =>
      have blocks := coarser.blocks next finer
      have entries := Nat.mul_le_mul atMost (Stage.bytesFor_mono _ _ blocks)
      have later := ih _ _ (Nat.mul_le_mul_left (2 ^ next) blocks)
      simp only [Layout.bytesFrom]
      omega

theorem Coarser.cost (coarser : Coarser small large) (width : ClassWidth) (widths : List Nat)
    (count : Nat) (feasible : (Trial.run large width widths).cost = .bytes count) :
    ∃ less, (Trial.run small width widths).cost = .bytes less ∧ less ≤ count := by
  obtain ⟨coarsest, finer, rfl, fits, rfl⟩ := (Trial.cost_run_eq_bytes_iff _ _ _ _).mp feasible
  refine ⟨_, Trial.cost_run_cons small coarsest finer width (fits.congr coarser.length.symm), ?_⟩
  rw [coarser.length]
  exact coarser.bytesFrom width finer _ _ (Nat.le_refl _)

theorem Coarser.price (coarser : Coarser small large) (width : ClassWidth) (widths : List Nat) :
    Trial.price small width widths ≤ Trial.price large width widths := by
  rw [Trial.price, Trial.price]
  cases cost : (Trial.run large width widths).cost with
  | bytes count =>
      obtain ⟨less, feasible, atMost⟩ := coarser.cost width widths count cost
      rw [feasible]
      exact atMost
  | infeasible =>
      obtain ⟨fault, refused⟩ := (Trial.cost_run_eq_infeasible_iff _ _ _).mp cost
      rw [ofMap_eq_error_congr large small coarser.length.symm] at refused
      rw [(Trial.cost_run_eq_infeasible_iff _ _ _).mpr ⟨fault, refused⟩]

end Layout

namespace Search

open Layout (Coarser)

theorem Chosen.bytes_le {small large : Table} {partitions : Nat} {width : ClassWidth}
    {less more : Choice} (coarser : Coarser small large)
    (lesser : Chosen small partitions width less) (greater : Chosen large partitions width more) :
    less.bytes ≤ more.bytes := by
  obtain ⟨count, feasible, atMost⟩ := coarser.cost width more.widths more.bytes greater.cost
  have eligible := greater.eligible
  rw [← coarser.length] at eligible
  exact Nat.le_trans (lesser.least more.widths eligible count feasible) atMost

end Search

namespace Layout

/-- Merging classes changes nothing about which widths a map has tables for, makes no table
longer and no entry wider, and leaves both the bytes for given widths and those of the cheapest
widths the same or fewer. -/
theorem ofMap_merged_le (map : Table) (merge : Nat → Nat) (width : ClassWidth)
    (short : map.length < 2 ^ 32) :
    (∀ widths,
      ((∃ merged, ofMap (map.map merge) widths width = .ok merged) ↔
        ∃ layout, ofMap map widths width = .ok layout) ∧
      (∀ layout merged, ofMap map widths width = .ok layout →
        ofMap (map.map merge) widths width = .ok merged →
        List.Forall₂ (fun short long => short.length ≤ long.length)
          merged.tables layout.tables ∧
        List.Forall₂ (fun narrow wide => narrow.entryBytes ≤ wide.entryBytes)
          merged.stages layout.stages) ∧
      Trial.price (map.map merge) width widths ≤ Trial.price map width widths) ∧
    ∀ partitions, map ≠ [] → 1 ≤ partitions → partitions ≤ mostStages →
      ∃ search merged, Search.ofMap map partitions width = .ok search ∧
        Search.ofMap (map.map merge) partitions width = .ok merged ∧
        Trial.price (map.map merge) width merged.choice.widths ≤
          Trial.price map width search.choice.widths := by
  have coarser := coarser_map map merge short
  constructor
  · intro widths
    refine ⟨exists_ofMap_congr _ _ coarser.length widths width, ?_, coarser.price width widths⟩
    intro layout merged built mergedBuilt
    obtain ⟨coarsest, finer, rfl, fits, rfl⟩ := (ofMap_eq_ok_iff _ _ _ _).mp built
    obtain ⟨_, _, same, _, rfl⟩ := (ofMap_eq_ok_iff _ _ _ _).mp mergedBuilt
    obtain ⟨rfl, rfl⟩ := List.cons_eq_cons.mp same
    exact ⟨coarser.tables coarsest finer width,
      coarser.stages coarsest finer width fits.wholeUnits⟩
  · intro partitions nonempty positive few
    have mergedNonempty : map.map merge ≠ [] := by simpa using nonempty
    obtain ⟨search, found, chosen⟩ :=
      Search.exists_chosen map partitions width nonempty positive few
    obtain ⟨merged, mergedFound, mergedChosen⟩ :=
      Search.exists_chosen (map.map merge) partitions width mergedNonempty positive few
    refine ⟨search, merged, found, mergedFound, ?_⟩
    rw [chosen.price, mergedChosen.price]
    exact mergedChosen.bytes_le coarser chosen

theorem ofMap_merged_le_pairs :
    (∃ layout merged, ofMap [0, 1, 2, 3, 0, 1, 3, 2] [2, 1] .sixteen = .ok layout ∧
      ofMap ([0, 1, 2, 3, 0, 1, 3, 2].map (· / 2)) [2, 1] .sixteen = .ok merged ∧
      layout.tables = [[0, 1, 0, 2], [0, 1, 2, 3, 3, 2]] ∧
      merged.tables = [[0, 1, 0, 1], [0, 0, 1, 1]] ∧
      List.Forall₂ (fun short long => short.length ≤ long.length) merged.tables layout.tables) ∧
    (¬ ∃ merged, ofMap ([0, 1, 2, 3, 0, 1, 3, 2].map (· / 2)) [2, 2] .sixteen = .ok merged) ∧
    ∃ search merged, Search.ofMap [0, 1, 2, 3, 0, 1, 3, 2] 2 .sixteen = .ok search ∧
      Search.ofMap ([0, 1, 2, 3, 0, 1, 3, 2].map (· / 2)) 2 .sixteen = .ok merged ∧
      Trial.price ([0, 1, 2, 3, 0, 1, 3, 2].map (· / 2)) .sixteen merged.choice.widths ≤
        Trial.price [0, 1, 2, 3, 0, 1, 3, 2] .sixteen search.choice.widths := by
  have built : ofMap [0, 1, 2, 3, 0, 1, 3, 2] [2, 1] .sixteen = .ok
      { widths := [2, 1], tables := [[0, 1, 0, 2], [0, 1, 2, 3, 3, 2]]
        stages := [Stage.pointing 6 1 1, Stage.final], width := .sixteen } := by cbv
  have mergedBuilt : ofMap ([0, 1, 2, 3, 0, 1, 3, 2].map (· / 2)) [2, 1] .sixteen = .ok
      { widths := [2, 1], tables := [[0, 1, 0, 1], [0, 0, 1, 1]]
        stages := [Stage.pointing 4 1 1, Stage.final], width := .sixteen } := by cbv
  have refused : ofMap [0, 1, 2, 3, 0, 1, 3, 2] [2, 2] .sixteen =
      .error (.widthTotal 4 3) := by cbv
  obtain ⟨layouts, searches⟩ :=
    ofMap_merged_le [0, 1, 2, 3, 0, 1, 3, 2] (· / 2) .sixteen (by decide)
  refine ⟨⟨_, _, built, mergedBuilt, rfl, rfl, ?_⟩, ?_, searches 2 (by decide) (by decide)
    (by decide)⟩
  · exact ((layouts [2, 1]).2.1 _ _ built mergedBuilt).1
  · rw [(layouts [2, 2]).1, refused]
    simp

end Layout

end Multistage
