/-!
What can be wrong with the text of a literal, or with the runs it spells.
Positions count the UTF-8 bytes of the text; pairs are numbered from zero.
-/

namespace Multistage.Literal

inductive Fault
  | badEscape (position : Nat)
  | strayCharacter (position : Nat)
  | unterminated
  | oddUnits
  | emptyRun (pair : Nat)
  | overflow (declared : Nat)
  | short (decoded declared : Nat)
  deriving DecidableEq

namespace Fault

def message : Fault → String
  | badEscape position => s!"bad escape at {position}"
  | strayCharacter position => s!"unexpected character outside quotes at {position}"
  | unterminated => "unterminated literal"
  | oddUnits => "odd number of characters, runs come in (count, value) pairs"
  | emptyRun pair => s!"zero-length run at pair {pair}"
  | overflow declared => s!"runs overflow declared length {declared}"
  | short decoded declared => s!"runs decode to {decoded} values, declared {declared}"

end Fault

end Multistage.Literal
