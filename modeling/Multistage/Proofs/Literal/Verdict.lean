import Multistage.Proofs.Literal.Runs
import Multistage.Proofs.Outcome

/-!
The outcome of decoding. Of all that may be wrong with the runs of a text, the first in the order
of the pairs is told; an odd unit is told before any pair is looked at, and a lack of values only
if every pair fits.
-/

namespace Multistage.Literal

namespace Run

def total (runs : List Run) : Nat :=
  (runs.map count).sum

theorem total_append (runs later : List Run) : total (runs ++ later) = total runs + total later := by
  simp [total]

theorem length_flatMap_expand (runs : List Run) :
    (runs.flatMap expand).length = total runs := by
  simp [total, expand, List.length_flatMap]

theorem total_take_le (runs : List Run) (pair : Nat) : total (runs.take pair) ≤ total runs := by
  have parts := total_append (runs.take pair) (runs.drop pair)
  rw [List.take_append_drop] at parts
  omega

end Run

/-- The pair at this place tells no value, or more than there is room for after those before it. -/
def Misfit (declared : Nat) (runs : List Run) (pair : Nat) : Prop :=
  ∃ run, runs[pair]? = some run ∧ (run.count = 0 ∨ declared < Run.total (runs.take (pair + 1)))

structure FirstMisfit (declared : Nat) (runs : List Run) (pair : Nat) : Prop where
  misfit : Misfit declared runs pair
  fits : ∀ earlier < pair, ¬ Misfit declared runs earlier

/-- What a fault says of runs that should tell as many values as declared. -/
def Objects (declared : Nat) (runs : List Run) : Fault → Prop
  | .emptyRun pair => FirstMisfit declared runs pair ∧ ∃ value, runs[pair]? = some ⟨0, value⟩
  | .overflow limit => limit = declared ∧
      ∃ pair run, FirstMisfit declared runs pair ∧ runs[pair]? = some run ∧ run.count ≠ 0
  | .short decoded limit => limit = declared ∧ decoded = Run.total runs ∧ decoded ≠ declared ∧
      ∀ pair, ¬ Misfit declared runs pair
  | _ => False

theorem FirstMisfit.unique {declared pair other : Nat} {runs : List Run}
    (first : FirstMisfit declared runs pair) (second : FirstMisfit declared runs other) :
    pair = other := by
  rcases Nat.lt_trichotomy pair other with before | same | behind
  · exact absurd first.misfit (second.fits pair before)
  · exact same
  · exact absurd second.misfit (first.fits other behind)

theorem not_misfit {declared : Nat} {runs : List Run} (some : ∀ run ∈ runs, 1 ≤ run.count)
    (room : Run.total runs ≤ declared) (pair : Nat) : ¬ Misfit declared runs pair := by
  rintro ⟨run, there, empty | beyond⟩
  · have positive := some run (List.mem_of_getElem? there)
    omega
  · have bound := Run.total_take_le runs (pair + 1)
    omega

theorem Objects.not_fills {declared : Nat} {runs : List Run} {fault : Fault}
    (objects : Objects declared runs fault) (some : ∀ run ∈ runs, 1 ≤ run.count) :
    Run.total runs ≠ declared := by
  intro fills
  have fits := not_misfit some (Nat.le_of_eq fills)
  cases fault with
  | emptyRun pair => exact fits pair objects.1.misfit
  | overflow limit =>
      obtain ⟨_, pair, _, first, _⟩ := objects
      exact fits pair first.misfit
  | short decoded limit =>
      obtain ⟨_, rfl, misses, _⟩ := objects
      exact misses fills
  | _ => exact objects

theorem FirstMisfit.count_eq_zero {declared pair other : Nat} {runs : List Run} {run : Run}
    {value : UInt16} (first : FirstMisfit declared runs pair)
    (second : FirstMisfit declared runs other) (empty : runs[pair]? = some ⟨0, value⟩)
    (there : runs[other]? = some run) : run.count = 0 := by
  rw [← first.unique second, empty] at there
  rw [← Option.some.inj there]

theorem Objects.unique {declared : Nat} {runs : List Run} {fault other : Fault}
    (objects : Objects declared runs fault) (others : Objects declared runs other) :
    fault = other := by
  cases fault with
  | emptyRun pair =>
      obtain ⟨first, _, empty⟩ := objects
      cases other with
      | emptyRun place => rw [first.unique others.1]
      | overflow limit =>
          obtain ⟨_, _, _, second, there, some⟩ := others
          exact absurd (first.count_eq_zero second empty there) some
      | short decoded limit => exact absurd first.misfit (others.2.2.2 pair)
      | _ => exact others.elim
  | overflow limit =>
      obtain ⟨rfl, pair, _, first, there, some⟩ := objects
      cases other with
      | emptyRun place =>
          obtain ⟨second, _, empty⟩ := others
          exact absurd (second.count_eq_zero first empty there) some
      | overflow other => rw [others.1]
      | short decoded limit => exact absurd first.misfit (others.2.2.2 pair)
      | _ => exact others.elim
  | short decoded limit =>
      obtain ⟨rfl, rfl, _, fits⟩ := objects
      cases other with
      | emptyRun place => exact absurd others.1.misfit (fits place)
      | overflow limit =>
          obtain ⟨_, pair, _, second, _⟩ := others
          exact absurd second.misfit (fits pair)
      | short decoded limit => rw [others.1, others.2.1]
      | _ => exact others.elim
  | _ => exact objects.elim

theorem misfit_next_iff (declared : Nat) (done later : List Run) (run : Run) :
    Misfit declared (done ++ run :: later) done.length ↔
      run.count = 0 ∨ declared < Run.total done + run.count := by
  have upTo : (done ++ run :: later).take (done.length + 1) = done ++ [run] := by
    rw [List.append_cons]
    exact List.take_left' (by simp)
  simp [Misfit, upTo, Run.total]

theorem objects_of_expandOnto (declared pair : Nat) (decoded : Array UInt16) (units : List UInt16)
    (done : List Run) (counted : pair = done.length) (filled : decoded.size = Run.total done)
    (fits : ∀ earlier < pair, ¬ Misfit declared (done ++ Run.ofUnits units) earlier)
    (fault : Fault) (fails : expandOnto declared pair decoded units = .error fault) :
    Objects declared (done ++ Run.ofUnits units) fault := by
  -- The runs done all fit, and what is decoded is what they tell. So the next pair is a misfit if
  -- and only if the work ends there.
  fun_induction expandOnto declared pair decoded units generalizing done with
  | case1 pair decoded value later =>
      cases fails
      subst counted
      have misfit := (misfit_next_iff declared done (Run.ofUnits later) ⟨0, value⟩).mpr (Or.inl rfl)
      exact ⟨⟨misfit, fits⟩, value, by simp [Run.ofUnits]⟩
  | case2 pair decoded count value later some excess =>
      cases fails
      subst counted
      have misfit := (misfit_next_iff declared done (Run.ofUnits later) ⟨count.toNat, value⟩).mpr
        (Or.inr (by rwa [← filled]))
      refine ⟨rfl, done.length, ⟨count.toNat, value⟩, ⟨misfit, fits⟩, by simp [Run.ofUnits], ?_⟩
      exact fun zero => some (UInt16.toNat_inj.mp zero)
  | case3 pair decoded count value later some room ih =>
      rw [Run.ofUnits, List.append_cons] at fits ⊢
      refine ih (done ++ [⟨count.toNat, value⟩]) (by simp [counted]) ?_ ?_ fails
      · simp [filled, Run.total]
      · intro earlier before
        by_cases last : earlier = pair
        · rw [last, counted, ← List.append_cons, misfit_next_iff, ← filled]
          rintro (zero | beyond)
          · exact some (UInt16.toNat_inj.mp zero)
          · exact room beyond
        · exact fits earlier (by omega)
  | case4 rest pair decoded full noPair => contradiction
  | case5 rest pair decoded misses noPair =>
      cases fails
      rw [Run.ofUnits_eq_nil noPair, List.append_nil] at fits ⊢
      refine ⟨rfl, filled, misses, fun place misfit => fits place ?_ misfit⟩
      obtain ⟨run, there, _⟩ := misfit
      have within := (List.getElem?_eq_some_iff.mp there).1
      omega

theorem expand_eq_error_iff (declared : Nat) (units : List UInt16) (fault : Fault) :
    expand units declared = .error fault ↔
      units.length % 2 = 1 ∧ fault = .oddUnits ∨
        units.length % 2 = 0 ∧ Objects declared (Run.ofUnits units) fault := by
  rcases Nat.mod_two_eq_zero_or_one units.length with even | odd
  · have told (other : Fault) (fails : expand units declared = .error other) :
        Objects declared (Run.ofUnits units) other := by
      rw [expand, if_neg (not_not_intro even)] at fails
      exact objects_of_expandOnto declared 0 #[] units [] rfl rfl
        (fun earlier before => absurd before (Nat.not_lt_zero earlier)) other fails
    simp only [even, Nat.zero_ne_one, false_and, true_and, false_or]
    refine ⟨told fault, fun objects => ?_⟩
    cases outcome : expand units declared with
    | error other => rw [objects.unique (told other outcome)]
    | ok values =>
        obtain ⟨_, sound, rfl, fills⟩ := (expand_eq_ok_iff declared units values).mp outcome
        rw [Run.length_flatMap_expand] at fills
        exact absurd fills (objects.not_fills fun run member => (sound run member).some)
  · simp [expand, odd, eq_comm]

theorem Run.short_of_mem_ofUnits (units : List UInt16) :
    ∀ run ∈ ofUnits units, run.count ≤ longest := by
  fun_induction ofUnits units with
  | case1 count value later ih =>
      intro run member
      rcases List.mem_cons.mp member with rfl | member
      · exact Nat.le_of_lt_succ count.toNat_lt
      · exact ih run member
  | case2 rest noPair => simp

theorem Run.sound_ofUnits_iff (units : List UInt16) :
    (∀ run ∈ ofUnits units, run.Sound) ↔ ∀ run ∈ ofUnits units, 1 ≤ run.count := by
  refine forall₂_congr fun run member => ?_
  exact ⟨Sound.some, fun some => ⟨some, short_of_mem_ofUnits units run member⟩⟩

theorem decode_eq_ok_iff (text : String) (declared : Nat) (values : List UInt16) :
    decode text declared = .ok values ↔ ∃ read, units text = .ok read ∧ read.length % 2 = 0 ∧
      (∀ run ∈ Run.ofUnits read, 1 ≤ run.count) ∧ Run.total (Run.ofUnits read) = declared ∧
      values = (Run.ofUnits read).flatMap Run.expand := by
  rw [decode, bind_eq_ok_iff]
  refine exists_congr fun read => and_congr_right fun _ => ?_
  rw [expand_eq_ok_iff, Run.sound_ofUnits_iff]
  refine and_congr_right fun _ => and_congr_right fun _ => ?_
  rw [and_comm]
  refine and_congr_left fun same => ?_
  rw [same, Run.length_flatMap_expand]

theorem decode_eq_error_iff (text : String) (declared : Nat) (fault : Fault) :
    decode text declared = .error fault ↔
      units text = .error fault ∨ ∃ read, units text = .ok read ∧
        (read.length % 2 = 1 ∧ fault = .oddUnits ∨
          read.length % 2 = 0 ∧ Objects declared (Run.ofUnits read) fault) := by
  rw [decode, bind_eq_error_iff]
  simp only [expand_eq_error_iff]

example : decode "\"\\3\\5\\0\\7\"" 2 = .error (.overflow 2) := by
  decide

/-- Over units that pair up, a length of `2 ^ 62` or more stops the program. Otherwise decoding
succeeds exactly if no run is empty and the runs fill the declared length, and then for no other
length. Else it fails with the fault of the text, or with the first that there is in its runs. -/
theorem load_verdict (text : String) (declared : Nat) :
    (load text declared = none ↔
      2 ^ 62 ≤ declared ∧ ∃ read, units text = .ok read ∧ read.length % 2 = 0) ∧
    (∀ values, load text declared = some (.ok values) ↔ declared < 2 ^ 62 ∧
      ∃ read, units text = .ok read ∧ read.length % 2 = 0 ∧
        (∀ run ∈ Run.ofUnits read, 1 ≤ run.count) ∧ Run.total (Run.ofUnits read) = declared ∧
        values = (Run.ofUnits read).flatMap Run.expand) ∧
    (∀ values, load text declared = some (.ok values) → values.length = declared ∧
      ∀ other result, load text other = some (.ok result) → other = declared) ∧
    ∀ fault, load text declared = some (.error fault) ↔
      units text = .error fault ∨ ∃ read, units text = .ok read ∧
        (read.length % 2 = 1 ∧ fault = .oddUnits ∨
          read.length % 2 = 0 ∧ declared < 2 ^ 62 ∧
            Objects declared (Run.ofUnits read) fault) := by
  refine ⟨load_eq_none_iff text declared, ?_, ?_, ?_⟩
  · intro values
    rw [load_eq_some_iff, decode_eq_ok_iff]
    constructor
    · rintro ⟨⟨read, spelled, even, filled⟩, runs⟩
      refine ⟨?_, read, spelled, even, filled⟩
      by_contra long
      exact runs ⟨by omega, read, spelled, even⟩
    · rintro ⟨short, filled⟩
      exact ⟨filled, fun stops => by omega⟩
  · intro values loaded
    obtain ⟨read, spelled, _, _, fills, same⟩ :=
      (decode_eq_ok_iff _ _ _).mp ((load_eq_some_iff _ _ _).mp loaded).1
    refine ⟨by rw [same, Run.length_flatMap_expand, fills], ?_⟩
    intro other result again
    obtain ⟨reread, respelled, _, _, refills, _⟩ :=
      (decode_eq_ok_iff _ _ _).mp ((load_eq_some_iff _ _ _).mp again).1
    cases spelled.symm.trans respelled
    exact refills.symm.trans fills
  · intro fault
    rw [load_eq_some_iff, decode_eq_error_iff]
    cases spelled : units text with
    | error cause => simp
    | ok read =>
        rcases Nat.mod_two_eq_zero_or_one read.length with even | odd
        · simp [even, and_comm]
        · simp [odd]

/-- Nothing is wrong with these units but that they tell too few values. -/
theorem load_stops :
    units "\"\"" = .ok [] ∧ Objects (2 ^ 62) (Run.ofUnits []) (.short 0 (2 ^ 62)) ∧
      load "\"\"" (2 ^ 62) = none := by
  have spelled : units "\"\"" = .ok [] := by decide
  refine ⟨spelled, ⟨rfl, rfl, by decide, ?_⟩, ?_⟩
  · rintro pair ⟨run, there, _⟩
    simp [Run.ofUnits] at there
  · exact (load_eq_none_iff _ _).mpr ⟨Nat.le_refl _, [], spelled, rfl⟩

end Multistage.Literal
