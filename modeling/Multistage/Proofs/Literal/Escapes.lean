import Mathlib.Algebra.Order.Ring.Nat
import Multistage.Literal.Basic
import Multistage.Literal.Reader

/-!
The reader on escapes: each gives back its unit, whatever comes after it. An octal escape has no
end of its own, so its unit counts as spelled while it is still open.
-/

namespace Multistage.Literal

theorem octalValue?_digitChar : ∀ digit < 8, octalValue? (Nat.digitChar digit) = some digit := by
  decide

theorem hexValue?_digitChar : ∀ digit < 16, hexValue? (Nat.digitChar digit) = some digit := by
  decide

theorem digitChar_ne_u : ∀ digit < 8, Nat.digitChar digit ≠ 'u' := by
  decide

theorem octalDigits_of_lt {value : Nat} (single : value < 8) :
    octalDigits value = [Nat.digitChar value] :=
  Nat.toDigits_of_lt_base single

theorem octalDigits_of_le {value : Nat} (several : 8 ≤ value) :
    octalDigits value = octalDigits (value / 8) ++ [Nat.digitChar (value % 8)] :=
  Nat.toDigits_of_base_le (by omega) several

namespace Reader

theorem run_append (state : State) (first later : List Char) :
    run state (first ++ later) = run state first >>= fun next => run next later :=
  List.foldlM_append

theorem run_cons {state next : State} {character : Char}
    (read : state.read character = .ok next) (later : List Char) :
    run state (character :: later) = run (next.advance character) later := by
  rw [run, List.foldlM_cons, State.step, read]
  rfl

namespace State

def Spells (state : State) (units : List UInt16) : Prop :=
  (state.mode = .quoted ∧ state.units.toList = units) ∨
    ∃ digits value, state.mode = .octal digits value ∧
      (state.units.push value.toUInt16).toList = units

theorem Spells.read {state : State} {units : List UInt16} (spells : state.Spells units)
    (character : Char) (noDigit : octalValue? character = none) :
    ∃ settled : State, settled.units.toList = units ∧ settled.position = state.position ∧
      state.read character = settled.readQuoted character := by
  rcases spells with ⟨mode, spelled⟩ | ⟨digits, value, mode, spelled⟩
  · exact ⟨state, spelled, rfl, by rw [State.read, mode]⟩
  · refine ⟨state.push value, spelled, rfl, ?_⟩
    simp only [State.read, mode, readOctal, noDigit]

theorem Spells.read_backslash {state : State} {units : List UInt16} (spells : state.Spells units) :
    ∃ next, state.read '\\' = .ok next ∧ next.mode = .backslash state.position ∧
      next.units.toList = units := by
  obtain ⟨settled, spelled, position, read⟩ := spells.read '\\' (by decide)
  exact ⟨_, read, congrArg Mode.backslash position, spelled⟩

theorem Spells.read_quote {state : State} {units : List UInt16} (spells : state.Spells units) :
    ∃ next, state.read '"' = .ok next ∧ next.mode = .outside ∧ next.units.toList = units := by
  obtain ⟨settled, spelled, _, read⟩ := spells.read '"' (by decide)
  exact ⟨_, read, rfl, spelled⟩

end State

theorem run_octalDigits (state : State) (start value : Nat) (mode : state.mode = .backslash start)
    (bound : value ≤ 0xFF) :
    ∃ next, run state (octalDigits value) = .ok next ∧
      next.mode = .octal (octalDigits value).length value ∧ next.units = state.units := by
  induction value using Nat.strongRecOn with
  | ind value ih =>
      by_cases single : value < 8
      · have digit := octalValue?_digitChar value single
        have read : state.read (Nat.digitChar value) = .ok (state.enter (.octal 1 value)) := by
          simp only [State.read, mode, State.readBackslash, digitChar_ne_u value single, if_false,
            digit]
        rw [octalDigits_of_lt single, run_cons read]
        exact ⟨_, rfl, rfl, rfl⟩
      · obtain ⟨next, upper, upperMode, upperUnits⟩ := ih (value / 8) (by omega) (by omega)
        have few : (octalDigits (value / 8)).length ≤ 2 :=
          (Nat.length_toDigits_le_iff (by omega) (by omega)).mpr (by omega)
        have digit := octalValue?_digitChar (value % 8) (by omega)
        have fits : (octalDigits (value / 8)).length < 3 ∧ 8 * (value / 8) + value % 8 ≤ 0xFF := by
          omega
        have read : next.read (Nat.digitChar (value % 8)) = .ok (next.enter
            (.octal ((octalDigits (value / 8)).length + 1) (8 * (value / 8) + value % 8))) := by
          simp only [State.read, upperMode, State.readOctal, digit, fits, and_self, if_true]
        rw [Nat.div_add_mod] at read
        rw [octalDigits_of_le (by omega), run_append, upper, List.length_append]
        exact ⟨_, run_cons read [], rfl, upperUnits⟩

theorem run_hexDigit (state : State) (start digits value digit : Nat) (later : List Char)
    (mode : state.mode = .hex start digits value) (open_ : digits ≠ 3) (bound : digit < 16) :
    ∃ next, run state (Nat.digitChar digit :: later) = run next later ∧
      next.mode = .hex start (digits + 1) (16 * value + digit) ∧ next.units = state.units := by
  have read : state.read (Nat.digitChar digit) =
      .ok (state.enter (.hex start (digits + 1) (16 * value + digit))) := by
    simp only [State.read, mode, State.readHex, hexValue?_digitChar digit bound, open_, if_false]
  exact ⟨_, run_cons read later, rfl, rfl⟩

theorem run_lastHexDigit (state : State) (start value digit : Nat) (later : List Char)
    (mode : state.mode = .hex start 3 value) (bound : digit < 16) :
    ∃ next, run state (Nat.digitChar digit :: later) = run next later ∧ next.mode = .quoted ∧
      next.units = state.units.push (16 * value + digit).toUInt16 := by
  have read : state.read (Nat.digitChar digit) = .ok (state.push (16 * value + digit)) := by
    simp only [State.read, mode, State.readHex, hexValue?_digitChar digit bound, if_true]
  exact ⟨_, run_cons read later, rfl, rfl⟩

theorem run_hexDigits (state : State) (start value : Nat) (mode : state.mode = .hex start 0 0)
    (bound : value < 2 ^ 16) :
    ∃ next, run state (hexDigits value) = .ok next ∧ next.mode = .quoted ∧
      next.units = state.units.push value.toUInt16 := by
  have whole : 16 * (16 * (16 * (16 * 0 + value / 0x1000 % 16) + value / 0x100 % 16) +
      value / 0x10 % 16) + value % 16 = value := by
    omega
  have small (number : Nat) : number % 16 < 16 := Nat.mod_lt number (by omega)
  obtain ⟨one, toOne, oneMode, oneUnits⟩ := run_hexDigit state start 0 0 _
    [Nat.digitChar (value / 0x100 % 16), Nat.digitChar (value / 0x10 % 16),
      Nat.digitChar (value % 16)] mode (by omega) (small (value / 0x1000))
  obtain ⟨two, toTwo, twoMode, twoUnits⟩ := run_hexDigit one start 1 _ _
    [Nat.digitChar (value / 0x10 % 16), Nat.digitChar (value % 16)] oneMode (by omega)
    (small (value / 0x100))
  obtain ⟨three, toThree, threeMode, threeUnits⟩ := run_hexDigit two start 2 _ _
    [Nat.digitChar (value % 16)] twoMode (by omega) (small (value / 0x10))
  obtain ⟨last, toLast, lastMode, lastUnits⟩ := run_lastHexDigit three start _ _ []
    threeMode (small value)
  rw [whole, threeUnits, twoUnits, oneUnits] at lastUnits
  refine ⟨last, ?_, lastMode, lastUnits⟩
  rw [hexDigits]
  exact toOne.trans (toTwo.trans (toThree.trans toLast))

theorem run_escape (state : State) (units : List UInt16) (unit : UInt16)
    (spells : state.Spells units) :
    ∃ next, run state (escape unit) = .ok next ∧ next.Spells (units ++ [unit]) := by
  obtain ⟨opened, read, mode, spelled⟩ := spells.read_backslash
  have same : unit.toNat.toUInt16 = unit := UInt16.ofNat_toNat
  by_cases short : unit.toNat ≤ 0xFF
  · obtain ⟨next, digits, nextMode, nextUnits⟩ := run_octalDigits
      (opened.advance '\\') state.position unit.toNat mode short
    refine ⟨next, ?_, Or.inr ⟨_, _, nextMode, ?_⟩⟩
    · rw [escape, if_pos short, run_cons read, digits]
    · rw [nextUnits, Array.toList_push, same]
      exact congrArg (· ++ [unit]) spelled
  · have letter : (opened.advance '\\').read 'u' =
        .ok ((opened.advance '\\').enter (.hex state.position 0 0)) := by
      have openedMode : (opened.advance '\\').mode = .backslash state.position := mode
      simp only [State.read, openedMode, State.readBackslash, if_true]
    obtain ⟨next, digits, nextMode, nextUnits⟩ := run_hexDigits
      (((opened.advance '\\').enter (.hex state.position 0 0)).advance 'u') state.position unit.toNat
      rfl unit.toNat_lt
    refine ⟨next, ?_, Or.inl ⟨nextMode, ?_⟩⟩
    · rw [escape, if_neg short, run_cons read, run_cons letter, digits]
    · rw [nextUnits, Array.toList_push, same]
      exact congrArg (· ++ [unit]) spelled

end Reader

end Multistage.Literal
