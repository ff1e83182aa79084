import Multistage.Literal.Reader

/-!
From the text of a literal to its values: the units are read in pairs of a count and a value,
and the runs have to fill the declared length exactly.
-/

namespace Multistage.Literal

def expandOnto (declared : Nat) : Nat → Array UInt16 → List UInt16 → Except Fault (List UInt16)
  | pair, decoded, count :: value :: later =>
      if count = 0 then
        .error (.emptyRun pair)
      else if declared < decoded.size + count.toNat then
        .error (.overflow declared)
      else
        expandOnto declared (pair + 1) (decoded ++ Array.replicate count.toNat value) later
  | _, decoded, _ =>
      if decoded.size = declared then
        .ok decoded.toList
      else
        .error (.short decoded.size declared)

def expand (units : List UInt16) (declared : Nat) : Except Fault (List UInt16) :=
  if units.length % 2 ≠ 0 then
    .error .oddUnits
  else
    expandOnto declared 0 #[] units

def decode (text : String) (declared : Nat) : Except Fault (List UInt16) := do
  expand (← units text) declared

/-- Decoding as it is run. Room for the declared values is reserved once the units are known to
pair up. More than `2 ^ 63 - 1` bytes cannot be reserved: the program stops without an outcome. -/
def load (text : String) (declared : Nat) : Option (Except Fault (List UInt16)) :=
  match units text with
  | .error fault => some (.error fault)
  | .ok read =>
      if read.length % 2 = 0 ∧ 0x7FFFFFFFFFFFFFFF < 2 * declared then none
      else some (expand read declared)

end Multistage.Literal
