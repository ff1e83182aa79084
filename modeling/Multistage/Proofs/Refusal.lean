import Multistage.Proofs.Decoded
import Multistage.Proofs.Search

/-!
Exactly what a bundle is refused for: an empty map, a number of stages out of range, or the first
class that is too big. Every bundle that is made can be read back.
-/

namespace Multistage.Bundle

/-- Why a map has no bundle; the first reason that applies is given. -/
def refusal? (classes : List UInt16) (settings : Settings) : Option Fault :=
  if classes = [] then
    some .emptyMap
  else if settings.partitions < 1 ∨ mostStages < settings.partitions then
    some (.partitionCount settings.partitions)
  else
    (classes.find? fun value => settings.width.max < value.toNat).map fun value =>
      .entryTooBig settings.table value.toNat settings.width.bits

theorem ofMap_eq_ofLayout (classes : List UInt16) (settings : Settings) (nonempty : classes ≠ [])
    (inRange : ¬ (settings.partitions < 1 ∨ mostStages < settings.partitions)) :
    ∃ coarsest finer,
      Layout.Fits (classes.map UInt16.toNat) coarsest finer settings.width ∧
      finer.length < mostStages ∧
      ofMap classes settings =
        ofLayout (Layout.shaped (classes.map UInt16.toNat) coarsest finer settings.width)
          settings.table settings.input := by
  -- The widths that a search chooses have tables, and no more than there are letters.
  have someClass : classes.map UInt16.toNat ≠ [] := by simpa using nonempty
  obtain ⟨search, found, chosen⟩ :=
    Search.exists_chosen _ settings.partitions settings.width someClass (by omega) (by omega)
  obtain ⟨coarsest, finer, widths, fits, _⟩ :=
    (Trial.cost_run_eq_bytes_iff _ _ _ _).mp chosen.cost
  have built := (Layout.ofMap_eq_ok_iff _ _ _ _).mpr ⟨coarsest, finer, widths, fits, rfl⟩
  refine ⟨coarsest, finer, fits, ?_, ?_⟩
  · have few := chosen.eligible.few
    rw [widths, List.length_cons] at few
    omega
  · simp only [ofMap, found, ofSearch, ofWidths, built, bind, Except.bind]

theorem ofLayout_eq_error (map : Table) (coarsest : Nat) (finer : List Nat) (width : ClassWidth)
    (table input : String) (short : map.length < 2 ^ 32)
    (fits : Layout.Fits map coarsest finer width) (few : finer.length < mostStages) (value : Nat)
    (oversized : (map.find? fun value => width.max < value) = some value) :
    ofLayout (Layout.shaped map coarsest finer width) table input =
      .error (.entryTooBig table value width.bits) := by
  obtain ⟨formula, looked⟩ := Layout.exists_lookup_shaped map coarsest finer width table input few
  have refused :=
    Layout.ofLayout_eq_error map coarsest finer width table short fits few value oversized
  simp only [ofLayout, looked, refused, bind, Except.bind]

theorem exists_ofLayout (map : Table) (coarsest : Nat) (finer : List Nat) (width : ClassWidth)
    (table input : String) (short : map.length < 2 ^ 32)
    (fits : Layout.Fits map coarsest finer width) (few : finer.length < mostStages)
    (fitting : ∀ value ∈ map, value ≤ width.max) :
    ∃ bundle, ofLayout (Layout.shaped map coarsest finer width) table input = .ok bundle := by
  obtain ⟨formula, looked⟩ := Layout.exists_lookup_shaped map coarsest finer width table input few
  obtain ⟨listings, written⟩ :=
    Layout.exists_ofLayout map coarsest finer width table short fits few fitting
  exact ⟨_, (ofLayout_eq_ok_iff _ _ _ _).mpr ⟨formula, listings, looked, written, rfl⟩⟩

theorem ofMap_of_refused (classes : List UInt16) (settings : Settings) (fault : Fault)
    (short : classes.length < 2 ^ 32) (refused : refusal? classes settings = some fault) :
    ofMap classes settings = .error fault := by
  rw [refusal?] at refused
  split at refused
  · rename_i empty
    obtain rfl := Option.some.inj refused
    rw [empty]
    rfl
  · rename_i nonempty
    split at refused
    · rename_i outOfRange
      obtain rfl := Option.some.inj refused
      simp only [ofMap, Search.ofMap, List.isEmpty_iff, List.map_eq_nil_iff, nonempty, if_false,
        outOfRange, if_true, bind, Except.bind]
    · rename_i inRange
      obtain ⟨coarsest, finer, fits, few, made⟩ :=
        ofMap_eq_ofLayout classes settings nonempty inRange
      obtain ⟨value, first, rfl⟩ := Option.map_eq_some_iff.mp refused
      rw [made]
      apply ofLayout_eq_error _ _ _ _ _ _ (by simpa using short) fits few
      rw [List.find?_map, Option.map_eq_some_iff]
      exact ⟨value, first, rfl⟩

theorem ofMap_of_accepted (classes : List UInt16) (settings : Settings)
    (short : classes.length < 2 ^ 32) (accepted : refusal? classes settings = none) :
    ∃ bundle, ofMap classes settings = .ok bundle := by
  rw [refusal?] at accepted
  split at accepted
  · simp at accepted
  · rename_i nonempty
    split at accepted
    · simp at accepted
    · rename_i inRange
      obtain ⟨coarsest, finer, fits, few, made⟩ :=
        ofMap_eq_ofLayout classes settings nonempty inRange
      rw [made]
      apply exists_ofLayout _ _ _ _ _ _ (by simpa using short) fits few
      intro value member
      obtain ⟨one, inClasses, rfl⟩ := List.mem_map.mp member
      rw [Option.map_eq_none_iff, List.find?_eq_none] at accepted
      simpa using accepted one inClasses

theorem exists_ofBundle (classes : List UInt16) (settings : Settings) (bundle : Bundle)
    (made : ofMap classes settings = .ok bundle) :
    ∃ decoded, Decoded.ofBundle bundle = .ok decoded := by
  -- The name of the final table does not matter for this: of two tables with one name, the later
  -- hides the earlier, but both are read.
  obtain ⟨search, _, ofWidths⟩ := (ofMap_eq_ok_iff _ _ _).mp made
  exact exists_ofBundle_of_widths _ _ _ _ _ bundle ofWidths

/-- A map that is refused is refused for the reason given, any other has a bundle, and every
bundle can be read back. -/
theorem ofMap_outcome (classes : List UInt16) (settings : Settings)
    (short : classes.length < 2 ^ 32) :
    (∀ fault, ofMap classes settings = .error fault ↔ refusal? classes settings = some fault) ∧
      ((∃ bundle, ofMap classes settings = .ok bundle) ↔ refusal? classes settings = none) ∧
      ∀ bundle, ofMap classes settings = .ok bundle →
        ∃ decoded, Decoded.ofBundle bundle = .ok decoded := by
  cases refused : refusal? classes settings with
  | none =>
      obtain ⟨bundle, made⟩ := ofMap_of_accepted classes settings short refused
      exact ⟨by simp [made], by simp [made], exists_ofBundle classes settings⟩
  | some cause =>
      have failed := ofMap_of_refused classes settings cause short refused
      exact ⟨by simp [failed], by simp [failed], exists_ofBundle classes settings⟩

theorem ofMap_outcome_by_reason :
    ofMap [] { partitions := 0 } = .error .emptyMap ∧
      ofMap [1, 9] { partitions := 27, width := .two } = .error (.partitionCount 27) ∧
      ofMap [0, 3, 5, 0, 3, 9, 5, 3] { partitions := 2, width := .two, table := "T" } =
        .error (.entryTooBig "T" 5 2) ∧
      ∃ bundle decoded,
        ofMap [7, 7, 7, 7, 7, 7, 8, 9] { partitions := 2, table := "ZZ_CMAP_Z" } = .ok bundle ∧
        Decoded.ofBundle bundle = .ok decoded := by
  refine ⟨((ofMap_outcome _ _ (by decide)).1 _).mpr (by decide),
    ((ofMap_outcome _ _ (by decide)).1 _).mpr (by decide),
    ((ofMap_outcome _ _ (by decide)).1 _).mpr (by decide), ?_⟩
  obtain ⟨_, accepted, decodes⟩ := ofMap_outcome [7, 7, 7, 7, 7, 7, 8, 9]
    { partitions := 2, table := "ZZ_CMAP_Z" } (by decide)
  obtain ⟨bundle, made⟩ := accepted.mpr (by decide)
  obtain ⟨decoded, read⟩ := decodes bundle made
  exact ⟨bundle, decoded, made, read⟩

end Multistage.Bundle
