import Multistage.Proofs.Bundle
import Multistage.Proofs.Candidates
import Multistage.Proofs.Price

/-!
The search chooses the cheapest eligible widths, and of several the ones that come first.
-/

namespace Multistage

namespace Choice

/-- The trials of `seen` that were not chosen: earlier ones are dearer, later ones not cheaper. -/
structure Leads (choice : Choice) (seen : List Trial) : Prop where
  split : ∃ earlier trial later, seen = earlier ++ trial :: later ∧
    trial.widths = choice.widths ∧ trial.cost = .bytes choice.bytes ∧
    (∀ other ∈ earlier, ∀ count, other.cost = .bytes count → choice.bytes < count) ∧
    ∀ other ∈ later, ∀ count, other.cost = .bytes count → choice.bytes ≤ count

def Tracks (best : Option Choice) (seen : List Trial) : Prop :=
  match best with
  | none => ∀ trial ∈ seen, trial.cost = .infeasible
  | some choice => choice.Leads seen

theorem Leads.bytes_le {choice : Choice} {seen : List Trial} (leads : choice.Leads seen) :
    ∀ other ∈ seen, ∀ count, other.cost = .bytes count → choice.bytes ≤ count := by
  obtain ⟨earlier, chosen, later, rfl, _, bytes, dearer, noCheaper⟩ := leads.split
  intro other member count feasible
  rcases List.mem_append.mp member with inEarlier | inLater
  · exact Nat.le_of_lt (dearer other inEarlier count feasible)
  · rcases List.mem_cons.mp inLater with rfl | inLater
    · obtain rfl : choice.bytes = count := by simpa [bytes] using feasible
      exact Nat.le_refl _
    · exact noCheaper other inLater count feasible

theorem Leads.append {choice : Choice} {seen : List Trial} (leads : choice.Leads seen)
    (trial : Trial) (noCheaper : ∀ count, trial.cost = .bytes count → choice.bytes ≤ count) :
    choice.Leads (seen ++ [trial]) := by
  obtain ⟨earlier, chosen, later, rfl, widths, bytes, dearer, laterNoCheaper⟩ := leads.split
  refine ⟨earlier, chosen, later ++ [trial], by simp, widths, bytes, dearer, ?_⟩
  intro other member
  rcases List.mem_append.mp member with inLater | last
  · exact laterNoCheaper other inLater
  · rwa [List.mem_singleton.mp last]

theorem leads_last {seen : List Trial} {trial : Trial} {count : Nat}
    (cost : trial.cost = .bytes count)
    (dearer : ∀ other ∈ seen, ∀ price, other.cost = .bytes price → count < price) :
    Leads ⟨trial.widths, count⟩ (seen ++ [trial]) :=
  ⟨seen, trial, [], rfl, rfl, cost, dearer, by simp⟩

theorem Tracks.cheaper {best : Option Choice} {seen : List Trial} (tracks : Tracks best seen)
    (trial : Trial) :
    Tracks (cheaper best trial.widths trial.cost) (seen ++ [trial]) := by
  cases cost : trial.cost with
  | infeasible =>
      cases best with
      | none =>
          intro other member
          rcases List.mem_append.mp member with earlier | last
          · exact tracks other earlier
          · rw [List.mem_singleton.mp last, cost]
      | some choice => exact Leads.append tracks trial (by simp [cost])
  | bytes count =>
      cases best with
      | none =>
          refine leads_last cost ?_
          intro other member price feasible
          rw [tracks other member] at feasible
          contradiction
      | some choice =>
          by_cases improves : count < choice.bytes
          · simp only [Choice.cheaper, improves, if_true]
            refine leads_last cost ?_
            intro other member price feasible
            exact Nat.lt_of_lt_of_le improves (Leads.bytes_le tracks other member price feasible)
          · simp only [Choice.cheaper, improves, if_false]
            refine Leads.append tracks trial ?_
            intro price feasible
            rw [cost, Cost.bytes.injEq] at feasible
            omega

theorem tracks_foldl (trials seen : List Trial) (best : Option Choice) (tracks : Tracks best seen) :
    Tracks (trials.foldl (fun best trial => cheaper best trial.widths trial.cost) best)
      (seen ++ trials) := by
  induction trials generalizing seen best with
  | nil => simpa using tracks
  | cons trial later ih => simpa using ih (seen ++ [trial]) _ (tracks.cheaper trial)

theorem tracks_ofTrials (trials : List Trial) : Tracks (ofTrials trials) trials := by
  simpa [ofTrials] using tracks_foldl trials [] none (by simp [Tracks])

end Choice

namespace Trial

theorem cost_run (map : Table) (width : ClassWidth) (widths : List Nat) (count : Nat) :
    (run map width widths).cost = .bytes count ↔
      ∃ layout, Layout.ofMap map widths width = .ok layout ∧ layout.totalBytes = count := by
  simp only [run, cost]
  cases built : Layout.ofMap map widths width with
  | error fault => simp [Except.map]
  | ok layout => simp [Except.map]

theorem cost_run_eq_infeasible_iff (map : Table) (width : ClassWidth) (widths : List Nat) :
    (run map width widths).cost = .infeasible ↔
      ∃ fault, Layout.ofMap map widths width = .error fault := by
  simp only [run, cost]
  cases built : Layout.ofMap map widths width with
  | error fault => simp [Except.map]
  | ok layout => simp [Except.map]

theorem cost_run_cons (map : Table) (coarsest : Nat) (finer : List Nat) (width : ClassWidth)
    (fits : Layout.Fits map coarsest finer width) :
    (run map width (coarsest :: finer)).cost =
      .bytes (Layout.bytesFrom map width (map.length / 2 ^ finer.sum) finer) := by
  rw [cost_run]
  exact ⟨_, (Layout.ofMap_eq_ok_iff _ _ _ _).mpr ⟨_, _, rfl, fits, rfl⟩,
    Layout.totalBytes_shaped _ _ _ _ fits.wholeUnits⟩

theorem cost_run_eq_bytes_iff (map : Table) (width : ClassWidth) (widths : List Nat)
    (count : Nat) :
    (run map width widths).cost = .bytes count ↔
      ∃ coarsest finer, widths = coarsest :: finer ∧ Layout.Fits map coarsest finer width ∧
        count = Layout.bytesFrom map width (map.length / 2 ^ finer.sum) finer := by
  constructor
  · intro feasible
    obtain ⟨layout, built, rfl⟩ := (cost_run _ _ _ _).mp feasible
    obtain ⟨coarsest, finer, rfl, fits, rfl⟩ := (Layout.ofMap_eq_ok_iff _ _ _ _).mp built
    exact ⟨coarsest, finer, rfl, fits, Layout.totalBytes_shaped _ _ _ _ fits.wholeUnits⟩
  · rintro ⟨coarsest, finer, rfl, fits, rfl⟩
    exact cost_run_cons map coarsest finer width fits

theorem cost_run_single (map : Table) (width : ClassWidth) (nonempty : map ≠ []) :
    (run map width [addressBits map.length]).cost =
      .bytes (2 * ((map.length * width.slotBits + 15) / 16)) := by
  rw [cost_run_cons map _ [] width ⟨nonempty, by simp, trivial, by simp, by simp⟩]
  simp [Layout.bytesFrom]

def price (map : Table) (width : ClassWidth) (widths : List Nat) : Nat :=
  (run map width widths).cost.toNat

end Trial

namespace Search

structure Chosen (map : Table) (partitions : Nat) (width : ClassWidth) (choice : Choice) :
    Prop where
  eligible : Eligible partitions (addressBits map.length) choice.widths
  cost : (Trial.run map width choice.widths).cost = .bytes choice.bytes
  least : ∀ widths, Eligible partitions (addressBits map.length) widths →
    ∀ count, (Trial.run map width widths).cost = .bytes count → choice.bytes ≤ count
  first : ∀ widths, Eligible partitions (addressBits map.length) widths →
    Precedes widths choice.widths →
    ∀ count, (Trial.run map width widths).cost = .bytes count → choice.bytes < count

theorem chosen_of_leads (map : Table) (partitions : Nat) (width : ClassWidth) (choice : Choice)
    (leads : choice.Leads
      ((candidates partitions (addressBits map.length)).map (Trial.run map width))) :
    Chosen map partitions width choice := by
  have candidate (widths : List Nat) := mem_candidates partitions (addressBits map.length) widths
  have cheapest := leads.bytes_le
  obtain ⟨_, _, _, trials, widths, cost, dearer, _⟩ := leads.split
  obtain ⟨earlier, rest, candidatesEq, rfl, restEq⟩ := List.map_eq_append_iff.mp trials
  obtain ⟨chosen, later, rfl, rfl, rfl⟩ := List.map_eq_cons_iff.mp restEq
  obtain rfl : chosen = choice.widths := widths
  refine ⟨(candidate _).mp (by simp [candidatesEq]), cost, ?_, ?_⟩
  · intro widths eligible count feasible
    exact cheapest _ (List.mem_map_of_mem ((candidate widths).mpr eligible)) count feasible
  · intro widths eligible precedes count feasible
    have member := (candidate widths).mpr eligible
    have sorted := pairwise_candidates partitions (addressBits map.length)
    rw [candidatesEq] at sorted member
    have after := (List.pairwise_cons.mp (List.pairwise_append.mp sorted).2.1).1
    rcases List.mem_append.mp member with before | rest
    · exact dearer _ (List.mem_map_of_mem before) count feasible
    · rcases List.mem_cons.mp rest with rfl | rest
      · exact absurd precedes (Std.Irrefl.irrefl _)
      · exact absurd precedes (after widths rest).asymm

theorem exists_chosen (map : Table) (partitions : Nat) (width : ClassWidth) (nonempty : map ≠ [])
    (positive : 1 ≤ partitions) (few : partitions ≤ mostStages) :
    ∃ search, ofMap map partitions width = .ok search ∧
      Chosen map partitions width search.choice := by
  have inRange : ¬ (partitions < 1 ∨ mostStages < partitions) := by omega
  have single : Eligible partitions (addressBits map.length) [addressBits map.length] :=
    ⟨by simp, by simpa using positive, by simp, by simp⟩
  have tracks := Choice.tracks_ofTrials
    ((candidates partitions (addressBits map.length)).map (Trial.run map width))
  simp only [ofMap, List.isEmpty_iff, nonempty, inRange, if_false]
  cases found : Choice.ofTrials
      ((candidates partitions (addressBits map.length)).map (Trial.run map width)) with
  | none =>
      rw [found] at tracks
      have infeasible := tracks _ (List.mem_map_of_mem ((mem_candidates _ _ _).mpr single))
      rw [Trial.cost_run_single map width nonempty] at infeasible
      contradiction
  | some choice =>
      rw [found] at tracks
      exact ⟨_, rfl, chosen_of_leads map partitions width choice tracks⟩

theorem slotBits_le (width : ClassWidth) : width.slotBits ≤ 16 := by
  cases width <;> decide

theorem Chosen.bytes_lt {map : Table} {partitions : Nat} {width : ClassWidth} {choice : Choice}
    (chosen : Chosen map partitions width choice) (nonempty : map ≠ [])
    (positive : 1 ≤ partitions) (short : map.length < 2 ^ 32) : choice.bytes < 2 ^ 64 - 1 := by
  have single : Eligible partitions (addressBits map.length) [addressBits map.length] :=
    ⟨by simp, by simpa using positive, by simp, by simp⟩
  have bound := chosen.least _ single _ (Trial.cost_run_single map width nonempty)
  have slots : map.length * width.slotBits ≤ map.length * 16 :=
    Nat.mul_le_mul_left _ (slotBits_le width)
  omega

theorem Chosen.price {map : Table} {partitions : Nat} {width : ClassWidth} {choice : Choice}
    (chosen : Chosen map partitions width choice) :
    Trial.price map width choice.widths = choice.bytes := by
  rw [Trial.price, chosen.cost, Cost.toNat]

/-- The choice is eligible, no eligible widths are cheaper, and those that come before it are all
dearer. A bundle is made for the choice and states its price. -/
theorem ofMap_first_cheapest (map : Table) (partitions : Nat) (width : ClassWidth)
    (nonempty : map ≠ []) (short : map.length < 2 ^ 32) (positive : 1 ≤ partitions)
    (few : partitions ≤ mostStages) :
    (∀ bits, addressBits map.length ≤ bits ↔ map.length ≤ 2 ^ bits) ∧
      ∃ search, ofMap map partitions width = .ok search ∧
        Eligible partitions (addressBits map.length) search.choice.widths ∧
        (∀ widths, Eligible partitions (addressBits map.length) widths →
          Trial.price map width search.choice.widths ≤ Trial.price map width widths) ∧
        (∀ widths, Eligible partitions (addressBits map.length) widths →
          Precedes widths search.choice.widths →
          Trial.price map width search.choice.widths < Trial.price map width widths) ∧
        ∀ (classes : List UInt16) (settings : Settings) (bundle : Bundle),
          classes.map UInt16.toNat = map → settings.partitions = partitions →
          settings.width = width → Bundle.ofMap classes settings = .ok bundle →
          bundle.widths = search.choice.widths ∧
            bundle.bytes = Trial.price map width search.choice.widths := by
  refine ⟨fun bits => addressBits_le_iff map.length bits, ?_⟩
  obtain ⟨search, found, chosen⟩ := exists_chosen map partitions width nonempty positive few
  have finite := chosen.bytes_lt nonempty positive short
  refine ⟨search, found, chosen.eligible, ?_, ?_, ?_⟩
  · intro widths eligible
    rw [chosen.price, Trial.price]
    cases cost : (Trial.run map width widths).cost with
    | bytes count => exact chosen.least widths eligible count cost
    | infeasible => exact Nat.le_of_lt finite
  · intro widths eligible precedes
    rw [chosen.price, Trial.price]
    cases cost : (Trial.run map width widths).cost with
    | bytes count => exact chosen.first widths eligible precedes count cost
    | infeasible => exact finite
  · rintro classes settings bundle rfl rfl rfl made
    obtain ⟨other, again, ofWidths⟩ := (Bundle.ofMap_eq_ok_iff _ _ _).mp made
    obtain rfl : search = other := by simpa [found] using again
    obtain ⟨layout, built, ofLayout⟩ := (Bundle.ofWidths_eq_ok_iff _ _ _ _ _ _).mp ofWidths
    obtain ⟨_, _, _, _, rfl⟩ := (Bundle.ofLayout_eq_ok_iff _ _ _ _).mp ofLayout
    have cost := (Trial.cost_run _ _ _ _).mpr ⟨layout, built, rfl⟩
    obtain ⟨_, _, widths, _, rfl⟩ := (Layout.ofMap_eq_ok_iff _ _ _ _).mp built
    refine ⟨widths.symm, ?_⟩
    rw [Trial.price, cost, Cost.toNat]

theorem ofMap_first_cheapest_tie :
    ∃ search, ofMap [0, 0, 0, 0, 1, 1, 1, 1, 2, 2, 2, 2, 3, 3, 3, 3] 2 .sixteen = .ok search ∧
      search.choice.widths = [3, 1] ∧
      32 ≤ Trial.price [0, 0, 0, 0, 1, 1, 1, 1, 2, 2, 2, 2, 3, 3, 3, 3] .sixteen [4] ∧
      32 < Trial.price [0, 0, 0, 0, 1, 1, 1, 1, 2, 2, 2, 2, 3, 3, 3, 3] .sixteen [2, 2] ∧
      ∃ bundle, Bundle.ofMap [0, 0, 0, 0, 1, 1, 1, 1, 2, 2, 2, 2, 3, 3, 3, 3] { partitions := 2 } =
        .ok bundle ∧ bundle.widths = [3, 1] ∧ bundle.bytes = 32 := by
  let layout : Layout :=
    { widths := [3, 1]
      tables := [[0, 0, 1, 1, 2, 2, 3, 3], [0, 0, 1, 1, 2, 2, 3, 3]]
      stages := [Stage.pointing 8 1 1, Stage.final]
      width := .sixteen }
  have searched : ofMap [0, 0, 0, 0, 1, 1, 1, 1, 2, 2, 2, 2, 3, 3, 3, 3] 2 .sixteen = .ok
      { trials := (candidates 2 4).map
          (Trial.run [0, 0, 0, 0, 1, 1, 1, 1, 2, 2, 2, 2, 3, 3, 3, 3] .sixteen)
        choice := ⟨[3, 1], 32⟩ } := by cbv
  have built : Layout.ofMap [0, 0, 0, 0, 1, 1, 1, 1, 2, 2, 2, 2, 3, 3, 3, 3] [3, 1] .sixteen =
      .ok layout := by cbv
  have made : ∃ bundle, Bundle.ofMap [0, 0, 0, 0, 1, 1, 1, 1, 2, 2, 2, 2, 3, 3, 3, 3]
      { partitions := 2 } = .ok bundle ∧ bundle.widths = [3, 1] ∧ bundle.bytes = 32 := by
    refine ⟨_, (Bundle.ofMap_eq_ok_iff _ _ _).mpr ⟨_, searched,
      (Bundle.ofWidths_eq_ok_iff _ _ _ _ _ _).mpr ⟨layout, built,
        (Bundle.ofLayout_eq_ok_iff _ _ _ _).mpr ⟨_, _, rfl, rfl, rfl⟩⟩⟩, rfl, ?_⟩
    change layout.totalBytes = 32
    cbv
  obtain ⟨bundle, bundleMade, bundleWidths, bundleBytes⟩ := made
  obtain ⟨_, search, found, _, least, first, bundled⟩ := ofMap_first_cheapest
    [0, 0, 0, 0, 1, 1, 1, 1, 2, 2, 2, 2, 3, 3, 3, 3] 2 .sixteen
    (by decide) (by decide) (by decide) (by decide)
  obtain ⟨widths, bytes⟩ := bundled [0, 0, 0, 0, 1, 1, 1, 1, 2, 2, 2, 2, 3, 3, 3, 3]
    { partitions := 2 } bundle (by decide) rfl rfl bundleMade
  have four : Eligible 2 (addressBits 16) [4] := ⟨by decide, by decide, by decide, by cbv⟩
  have even : Eligible 2 (addressBits 16) [2, 2] := ⟨by decide, by decide, by decide, by cbv⟩
  rw [bundleWidths] at widths
  have cheaper := least [4] four
  have dearer := first [2, 2] even (by rw [← widths]; exact Or.inr ⟨rfl, by decide⟩)
  rw [← bytes, bundleBytes] at cheaper dearer
  exact ⟨search, found, widths.symm, cheaper, dearer, bundle, bundleMade, bundleWidths, bundleBytes⟩

end Search

end Multistage
