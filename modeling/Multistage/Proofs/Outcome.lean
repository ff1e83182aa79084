/-!
Steps that may fail, one after the other.
-/

namespace Multistage

variable {ε α β : Type}

theorem bind_eq_ok_iff (first : Except ε α) (next : α → Except ε β) (result : β) :
    first >>= next = .ok result ↔ ∃ value, first = .ok value ∧ next value = .ok result := by
  cases first with
  | error fault => simp [bind, Except.bind]
  | ok value => simp [bind, Except.bind]

theorem bind_eq_error_iff (first : Except ε α) (next : α → Except ε β) (fault : ε) :
    first >>= next = .error fault ↔
      first = .error fault ∨ ∃ value, first = .ok value ∧ next value = .error fault := by
  cases first with
  | error cause => simp [bind, Except.bind]
  | ok value => simp [bind, Except.bind]

theorem pure_eq_ok_iff (value result : α) :
    (pure value : Except ε α) = .ok result ↔ value = result := by
  simp [pure, Except.pure]

theorem map_eq_ok_iff (first : Except ε α) (next : α → β) (result : β) :
    first.map next = .ok result ↔ ∃ value, first = .ok value ∧ next value = result := by
  cases first with
  | error fault => simp [Except.map]
  | ok value => simp [Except.map]

theorem map_eq_error_iff (first : Except ε α) (next : α → β) (fault : ε) :
    first.map next = .error fault ↔ first = .error fault := by
  cases first with
  | error cause => simp [Except.map]
  | ok value => simp [Except.map]

/-- An outcome ends with the first of some faults, and without any it succeeds. -/
def FailsWith (faults : List ε) (outcome : Except ε α) : Prop :=
  ∀ fault, outcome = .error fault ↔ faults.head? = some fault

namespace FailsWith

theorem exists_ok_iff {faults : List ε} {outcome : Except ε α} (fails : FailsWith faults outcome) :
    (∃ value, outcome = .ok value) ↔ faults = [] := by
  cases outcome with
  | ok value =>
      have none : faults.head? = none := by
        rw [Option.eq_none_iff_forall_ne_some]
        intro fault first
        simpa using (fails fault).mpr first
      simpa using none
  | error fault =>
      have first := (fails fault).mp rfl
      constructor
      · rintro ⟨_, succeeded⟩
        contradiction
      · rintro rfl
        contradiction

theorem pure (value : α) : FailsWith [] (.ok value : Except ε α) := by
  simp [FailsWith]

theorem bind {faults later : List ε} {first : Except ε α} {next : α → Except ε β}
    (fails : FailsWith faults first)
    (continues : ∀ value, first = .ok value → FailsWith later (next value)) :
    FailsWith (faults ++ later) (first >>= next) := by
  intro fault
  rw [bind_eq_error_iff, fails fault, List.head?_append, Option.or_eq_some_iff]
  refine or_congr Iff.rfl ?_
  constructor
  · rintro ⟨value, succeeded, failed⟩
    have none := fails.exists_ok_iff.mp ⟨value, succeeded⟩
    exact ⟨by rw [none]; rfl, (continues value succeeded fault).mp failed⟩
  · rintro ⟨none, failed⟩
    obtain ⟨value, succeeded⟩ := fails.exists_ok_iff.mpr (by simpa using none)
    exact ⟨value, succeeded, (continues value succeeded fault).mpr failed⟩

end FailsWith

end Multistage
