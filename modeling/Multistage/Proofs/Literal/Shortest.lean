import Mathlib.Data.List.Chain
import Multistage.Proofs.Literal.RoundTrip
import Multistage.Proofs.Outcome

/-!
The runs of a literal are as long as they can be, and for that reason as few as they can be: no
text that decodes to the same values spells fewer units.
-/

namespace Multistage.Literal

namespace Run

/-- A run is followed by another of its value only if it is full. -/
def Merged (former latter : Run) : Prop :=
  former.value = latter.value → former.count = longest

structure Canonical (runs : List Run) : Prop where
  sound : ∀ run ∈ runs, run.Sound
  merged : runs.IsChain Merged

theorem Canonical.tail {run : Run} {runs : List Run} (canonical : Canonical (run :: runs)) :
    Canonical runs :=
  ⟨fun one member => canonical.sound one (List.mem_cons_of_mem _ member),
    canonical.merged.tail⟩

theorem merged_push (runs : List Run) (value : UInt16) (sound : ∀ run ∈ runs, run.Sound)
    (merged : runs.IsChain fun latter former => Merged former latter) :
    (push runs value).IsChain fun latter former => Merged former latter := by
  -- Of runs that stand the latest first, the open one may still grow, since a run is compared
  -- with the value of its successor only.
  cases runs with
  | nil => exact List.isChain_singleton _
  | cons latest earlier =>
      rw [push]
      split
      · rename_i continues
        rw [List.isChain_cons] at merged ⊢
        refine ⟨?_, merged.2⟩
        intro former first same
        exact merged.1 former first (same.trans continues.1.symm)
      · rename_i ends
        rw [List.isChain_cons_cons]
        refine ⟨?_, merged⟩
        intro same
        have short := (sound latest List.mem_cons_self).short
        have full : ¬ latest.count < longest := fun room => ends ⟨same, room⟩
        omega

theorem Canonical.stretch_within {run : Run} {later : List Run}
    (canonical : Canonical (run :: later)) (stretch rest : List UInt16) (value : UInt16)
    (equal : ∀ one ∈ stretch, one = value) (short : stretch.length ≤ longest)
    (same : stretch ++ rest = run.expand ++ later.flatMap expand) :
    ∃ remaining, run.expand = stretch ++ remaining ∧ rest = remaining ++ later.flatMap expand := by
  rcases List.append_eq_append_iff.mp same with within | ⟨beyond, covers, follows⟩
  · exact within
  · cases beyond with
    | nil => exact ⟨[], by simpa using covers.symm, by simpa using follows.symm⟩
    | cons next beyond =>
        -- A value past the run is that of its successor, so the run is full and the stretch longer.
        exfalso
        have some := (canonical.sound run List.mem_cons_self).some
        have runValue : run.value = value := by
          apply equal
          rw [covers, expand]
          exact List.mem_append_left _ (List.mem_replicate.mpr ⟨by omega, rfl⟩)
        have nextValue : next = value := equal next (by rw [covers]; simp)
        cases later with
        | nil => simp at follows
        | cons successor later =>
            have successorSome := (canonical.tail.sound successor List.mem_cons_self).some
            obtain ⟨count, counted⟩ := Nat.exists_eq_add_of_le' successorSome
            have successorValue : successor.value = next := by
              simp only [List.flatMap_cons, expand, counted, List.replicate_succ,
                List.cons_append, List.cons.injEq] at follows
              exact follows.1
            have full : run.count = longest := by
              have merged := (List.isChain_cons_cons.mp canonical.merged).1
              exact merged (by rw [runValue, successorValue, nextValue])
            rw [covers, expand] at short
            simp only [List.length_append, List.length_replicate, List.length_cons] at short
            omega

/-- Runs that spell at least as much take at least as many. The values spelled too much stand at
the front, so that the last of the other runs may be cut short. -/
theorem Canonical.length_le_of_suffix {runs : List Run} (canonical : Canonical runs)
    (others : List Run) (before : List UInt16) (sound : ∀ run ∈ others, run.Sound)
    (same : others.flatMap expand = before ++ runs.flatMap expand) :
    runs.length ≤ others.length := by
  induction others generalizing runs before with
  | nil =>
      cases runs with
      | nil => exact Nat.le_refl _
      | cons run later =>
          have some := (canonical.sound run List.mem_cons_self).some
          have none := congrArg List.length same
          simp only [List.flatMap_nil, List.length_nil, List.flatMap_cons, List.length_append,
            expand, List.length_replicate] at none
          omega
  | cons other others ih =>
      have others_sound : ∀ run ∈ others, run.Sound := fun run member =>
        sound run (List.mem_cons_of_mem _ member)
      have short := (sound other List.mem_cons_self).short
      rw [List.flatMap_cons] at same
      rcases List.append_eq_append_iff.mp same with ⟨ahead, _, rest⟩ | ⟨stretch, front, rest⟩
      · -- The other run spells only values that stand too much at the front.
        exact Nat.le_succ_of_le (ih canonical ahead others_sound rest)
      · cases runs with
        | nil => exact Nat.zero_le _
        | cons run later =>
            have equal : ∀ one ∈ stretch, one = other.value := by
              intro one member
              apply List.eq_of_mem_replicate (n := other.count)
              change one ∈ other.expand
              rw [front]
              exact List.mem_append_right before member
            have length : stretch.length ≤ longest := by
              have total := congrArg List.length front
              simp only [expand, List.length_replicate, List.length_append] at total
              omega
            obtain ⟨remaining, _, remains⟩ :=
              canonical.stretch_within stretch _ other.value equal length rest.symm
            exact Nat.succ_le_succ (ih canonical.tail remaining others_sound remains)

end Run

theorem Encoder.merged_foldl (encoder : Encoder) (values : List UInt16)
    (sound : ∀ run ∈ encoder.runs, run.Sound)
    (merged : encoder.runs.IsChain fun latter former => Run.Merged former latter) :
    (values.foldl push encoder).runs.IsChain fun latter former => Run.Merged former latter := by
  induction values generalizing encoder with
  | nil => exact merged
  | cons value later ih =>
      exact ih (encoder.push value) (Run.sound_push encoder.runs value sound)
        (Run.merged_push encoder.runs value sound merged)

theorem exists_canonical (values : List UInt16) :
    ∃ runs, units (ofValues values).text = .ok (runs.flatMap Run.units) ∧
      Run.Canonical runs ∧ runs.flatMap Run.expand = values := by
  obtain ⟨expanded, sound⟩ := Encoder.push_foldl {} values (by simp)
  have merged := Encoder.merged_foldl {} values (by simp) List.isChain_nil
  refine ⟨(values.foldl Encoder.push {}).runs.reverse, ?_, ⟨?_, ?_⟩, ?_⟩
  · rw [units_text, ofValues, Encoder.finish, flatten_lines_ofUnits]
  · exact fun run member => sound run (List.mem_reverse.mp member)
  · exact List.isChain_reverse.mpr merged
  · simpa [Run.values] using expanded

/-- A literal tells its values in runs of which none could take over a value of the next, and
there is no text for the same values with fewer units. -/
theorem units_ofValues_shortest (values : List UInt16) :
    ∃ runs, units (ofValues values).text = .ok (runs.flatMap Run.units) ∧
      Run.Canonical runs ∧ runs.flatMap Run.expand = values ∧
      ∀ text, decode text values.length = .ok values →
        ∃ other, units text = .ok other ∧ (runs.flatMap Run.units).length ≤ other.length := by
  obtain ⟨runs, spelled, canonical, expanded⟩ := exists_canonical values
  refine ⟨runs, spelled, canonical, expanded, ?_⟩
  intro text decoded
  obtain ⟨other, read, fills⟩ := (bind_eq_ok_iff _ _ _).mp decoded
  obtain ⟨even, sound, same, _⟩ := (expand_eq_ok_iff _ _ _).mp fills
  refine ⟨other, read, ?_⟩
  have fewest := canonical.length_le_of_suffix (Run.ofUnits other) [] sound
    (by rw [List.nil_append, expanded, same])
  rw [length_flatMap_units]
  have pairs := Run.length_ofUnits other
  omega

end Multistage.Literal
