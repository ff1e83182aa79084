import Multistage.Proofs.Literal.RoundTrip
import Multistage.Proofs.Outcome

/-!
Texts read one after the other. A text that is read through leaves nothing open, so what comes
after it is read as if it stood alone, only later: its units follow the ones before, and the
positions it is blamed at count the bytes before.
-/

namespace Multistage.Literal

def Fault.after (length : Nat) : Fault → Fault
  | badEscape position => badEscape (length + position)
  | strayCharacter position => strayCharacter (length + position)
  | fault => fault

theorem utf8ByteSize_ofList_cons (character : Char) (later : List Char) :
    (String.ofList (character :: later)).utf8ByteSize =
      character.utf8Size + (String.ofList later).utf8ByteSize := by
  have split : String.ofList (character :: later) =
      String.singleton character ++ String.ofList later := by
    rw [← String.toList_inj, String.toList_append, String.toList_ofList, String.toList_ofList,
      String.toList_singleton]
    rfl
  rw [split, String.utf8ByteSize_append, String.utf8ByteSize_singleton]

namespace Reader

def Mode.after (length : Nat) : Mode → Mode
  | outside => outside
  | quoted => quoted
  | backslash start => backslash (length + start)
  | hex start digits value => hex (length + start) digits value
  | octal digits value => octal digits value

namespace State

def after (state : State) (length : Nat) (earlier : Array UInt16) : State :=
  { position := length + state.position
    units := earlier ++ state.units
    mode := state.mode.after length }

variable (state : State) (length : Nat) (earlier : Array UInt16)

def delayed (outcome : Except Fault State) : Except Fault State :=
  (outcome.map (·.after length earlier)).mapError (·.after length)

theorem push_after (unit : Nat) :
    (state.after length earlier).push unit = (state.push unit).after length earlier := by
  simp [push, after, Mode.after]

theorem advance_after (character : Char) :
    (state.after length earlier).advance character =
      (state.advance character).after length earlier := by
  simp [advance, after, Nat.add_assoc]

theorem readOutside_after (character : Char) :
    (state.after length earlier).readOutside character =
      delayed length earlier (state.readOutside character) := by
  rw [readOutside, readOutside]
  split
  · rfl
  · split <;> rfl

theorem readQuoted_after (character : Char) :
    (state.after length earlier).readQuoted character =
      delayed length earlier (state.readQuoted character) := by
  rw [readQuoted, readQuoted, push_after]
  split
  · rfl
  · split
    · rfl
    · split <;> rfl

theorem readBackslash_after (start : Nat) (character : Char) :
    (state.after length earlier).readBackslash (length + start) character =
      delayed length earlier (state.readBackslash start character) := by
  rw [readBackslash, readBackslash]
  split
  · rfl
  · cases octalValue? character <;> rfl

theorem readHex_after (start digits value : Nat) (character : Char) :
    (state.after length earlier).readHex (length + start) digits value character =
      delayed length earlier (state.readHex start digits value character) := by
  rw [readHex, readHex]
  cases hexValue? character with
  | none => rfl
  | some digit =>
      simp only [push_after]
      split <;> rfl

theorem readOctal_after (digits value : Nat) (character : Char) :
    (state.after length earlier).readOctal digits value character =
      delayed length earlier (state.readOctal digits value character) := by
  rw [readOctal, readOctal, push_after]
  cases octalValue? character with
  | none => exact readQuoted_after _ length earlier character
  | some digit =>
      simp only
      split
      · rfl
      · exact readQuoted_after _ length earlier character

theorem mode_after : (state.after length earlier).mode = state.mode.after length :=
  rfl

theorem read_after (character : Char) :
    (state.after length earlier).read character =
      delayed length earlier (state.read character) := by
  rw [read, read, mode_after]
  cases state.mode with
  | outside => exact readOutside_after state length earlier character
  | quoted => exact readQuoted_after state length earlier character
  | backslash start => exact readBackslash_after state length earlier start character
  | hex start digits value => exact readHex_after state length earlier start digits value character
  | octal digits value => exact readOctal_after state length earlier digits value character

theorem position_readQuoted (character : Char) :
    (state.readQuoted character).map position =
      (state.readQuoted character).map fun _ => state.position := by
  rw [readQuoted]
  split
  · rfl
  · split
    · rfl
    · split <;> rfl

theorem position_read (character : Char) :
    (state.read character).map position =
      (state.read character).map fun _ => state.position := by
  rw [read]
  cases state.mode with
  | outside =>
      simp only [readOutside]
      split
      · rfl
      · split <;> rfl
  | quoted => exact position_readQuoted state character
  | backslash start =>
      simp only [readBackslash]
      split
      · rfl
      · cases octalValue? character <;> rfl
  | hex start digits value =>
      simp only [readHex]
      cases hexValue? character with
      | none => rfl
      | some digit =>
          simp only
          split <;> rfl
  | octal digits value =>
      simp only [readOctal]
      cases octalValue? character with
      | none => exact position_readQuoted (state.push value) character
      | some digit =>
          simp only
          split
          · rfl
          · exact position_readQuoted (state.push value) character

theorem step_after (character : Char) :
    (state.after length earlier).step character =
      delayed length earlier (state.step character) := by
  rw [step, step, read_after]
  cases state.read character with
  | error fault => rfl
  | ok next =>
      simp only [delayed, Except.map, Except.mapError, advance_after]

theorem finish_after :
    (state.after length earlier).finish =
      (state.finish.map (earlier.toList ++ ·)).mapError (·.after length) := by
  rw [finish, finish, mode_after]
  cases state.mode with
  | outside => exact congrArg Except.ok Array.toList_append
  | quoted => rfl
  | backslash start => rfl
  | hex start digits value => rfl
  | octal digits value => rfl

end State

theorem run_after (state : State) (length : Nat) (earlier : Array UInt16)
    (characters : List Char) :
    run (state.after length earlier) characters =
      State.delayed length earlier (run state characters) := by
  induction characters generalizing state with
  | nil => rfl
  | cons character characters ih =>
      rw [run, run, List.foldlM_cons, List.foldlM_cons, State.step_after]
      cases state.step character with
      | error fault => rfl
      | ok next => exact ih next

theorem position_run (state next : State) (characters : List Char)
    (reads : run state characters = .ok next) :
    next.position = state.position + (String.ofList characters).utf8ByteSize := by
  induction characters generalizing state with
  | nil =>
      cases reads
      rfl
  | cons character characters ih =>
      obtain ⟨between, stepped, rest⟩ := (bind_eq_ok_iff _ _ _).mp reads
      obtain ⟨one, read, rfl⟩ := (map_eq_ok_iff _ _ _).mp stepped
      have advanced := ih (one.advance character) rest
      have kept := State.position_read state character
      rw [read] at kept
      have same : one.position = state.position := Except.ok.inj kept
      rw [advanced, utf8ByteSize_ofList_cons, State.advance, same]
      exact Nat.add_assoc _ _ _

theorem State.finish_eq_ok_iff_between (state : State) (units : List UInt16) :
    state.finish = .ok units ↔ state.Between units := by
  rw [finish, Between]
  cases state.mode <;> simp

theorem run_of_units {text : String} {read : List UInt16} (ends : units text = .ok read) :
    run {} text.toList = .ok (State.after {} text.utf8ByteSize read.toArray) := by
  -- A text ends well only outside quotes, so nothing of it is open when the next one begins.
  obtain ⟨⟨position, units, mode⟩, reads, finished⟩ := (bind_eq_ok_iff _ _ _).mp ends
  obtain ⟨rfl, rfl⟩ := (State.finish_eq_ok_iff_between _ read).mp finished
  have behind := position_run {} _ text.toList reads
  rw [String.ofList_toList] at behind
  have place : position = text.utf8ByteSize := behind.trans (Nat.zero_add _)
  rw [reads, place]
  simp [State.after, Mode.after]

end Reader

/-- A text after one that is read through gives the same outcome as on its own, with the units of
the first before its own and its faults moved by the bytes of the first. -/
theorem units_append (first second : String) (read : List UInt16) (ends : units first = .ok read) :
    units (first ++ second) =
      ((units second).map (read ++ ·)).mapError (Fault.after first.utf8ByteSize) := by
  rw [units, String.toList_append, Reader.run_append, Reader.run_of_units ends]
  change Reader.run _ second.toList >>= Reader.State.finish = _
  rw [Reader.run_after, units]
  cases Reader.run {} second.toList with
  | error fault => rfl
  | ok state => exact state.finish_after first.utf8ByteSize read.toArray

theorem units_append_bad_escape :
    units "\"\\7é\" +" = .ok [7, 233] ∧
      units ("\"\\7é\" +" ++ "\u3000\"\\u12") = .error (.badEscape 12) := by
  have ends : units "\"\\7é\" +" = .ok [7, 233] := by decide
  refine ⟨ends, ?_⟩
  rw [units_append _ "\u3000\"\\u12" _ ends]
  decide

end Multistage.Literal
