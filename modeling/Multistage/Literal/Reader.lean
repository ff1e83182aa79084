import Multistage.Literal.Blank
import Multistage.Literal.Fault

/-!
Reading the text of a literal. The reader looks at one character at a time and remembers only
what it is in the middle of, so a text can be read in pieces.
-/

namespace Multistage.Literal

def octalValue? (character : Char) : Option Nat :=
  if '0' ≤ character ∧ character ≤ '7' then some (character.toNat - '0'.toNat) else none

def hexValue? (character : Char) : Option Nat :=
  if '0' ≤ character ∧ character ≤ '9' then some (character.toNat - '0'.toNat)
  else if 'a' ≤ character ∧ character ≤ 'f' then some (character.toNat - 'a'.toNat + 10)
  else if 'A' ≤ character ∧ character ≤ 'F' then some (character.toNat - 'A'.toNat + 10)
  else none

namespace Reader

/-- What the reader is in the middle of. An escape knows where its backslash stands; a numeric
one knows how many digits it has so far and what they are worth. -/
inductive Mode
  | outside
  | quoted
  | backslash (start : Nat)
  | hex (start digits value : Nat)
  | octal (digits value : Nat)
  deriving DecidableEq

structure State where
  position : Nat := 0
  units : Array UInt16 := #[]
  mode : Mode := .outside

namespace State

def push (state : State) (unit : Nat) : State :=
  { state with units := state.units.push unit.toUInt16, mode := .quoted }

def enter (state : State) (mode : Mode) : State :=
  { state with mode := mode }

def readQuoted (state : State) (character : Char) : Except Fault State :=
  if character = '"' then
    .ok (state.enter .outside)
  else if character = '\\' then
    .ok (state.enter (.backslash state.position))
  else if character.toNat ≤ 0xFFFF then
    .ok (state.push character.toNat)
  else
    .error (.badEscape state.position)

def readOutside (state : State) (character : Char) : Except Fault State :=
  if character = '"' then
    .ok (state.enter .quoted)
  else if character = '+' ∨ isBlank character then
    .ok state
  else
    .error (.strayCharacter state.position)

def readBackslash (state : State) (start : Nat) (character : Char) : Except Fault State :=
  if character = 'u' then
    .ok (state.enter (.hex start 0 0))
  else
    match octalValue? character with
    | some digit => .ok (state.enter (.octal 1 digit))
    | none => .error (.badEscape start)

def readHex (state : State) (start digits value : Nat) (character : Char) :
    Except Fault State :=
  match hexValue? character with
  | none => .error (.badEscape start)
  | some digit =>
      if digits = 3 then
        .ok (state.push (16 * value + digit))
      else
        .ok (state.enter (.hex start (digits + 1) (16 * value + digit)))

def readOctal (state : State) (digits value : Nat) (character : Char) : Except Fault State :=
  match octalValue? character with
  | some digit =>
      if digits < 3 ∧ 8 * value + digit ≤ 0xFF then
        .ok (state.enter (.octal (digits + 1) (8 * value + digit)))
      else
        (state.push value).readQuoted character
  | none => (state.push value).readQuoted character

def read (state : State) (character : Char) : Except Fault State :=
  match state.mode with
  | .outside => state.readOutside character
  | .quoted => state.readQuoted character
  | .backslash start => state.readBackslash start character
  | .hex start digits value => state.readHex start digits value character
  | .octal digits value => state.readOctal digits value character

def advance (state : State) (character : Char) : State :=
  { state with position := state.position + character.utf8Size }

def step (state : State) (character : Char) : Except Fault State :=
  (state.read character).map (·.advance character)

def finish (state : State) : Except Fault (List UInt16) :=
  match state.mode with
  | .outside => .ok state.units.toList
  | .quoted => .error .unterminated
  | .octal _ _ => .error .unterminated
  | .backslash start => .error (.badEscape start)
  | .hex start _ _ => .error (.badEscape start)

end State

def run (state : State) (characters : List Char) : Except Fault State :=
  characters.foldlM State.step state

end Reader

def units (text : String) : Except Fault (List UInt16) := do
  (← Reader.run {} text.toList).finish

end Multistage.Literal
