import Multistage.Literal.Fault

/-!
Why a map cannot be laid out, written as tables or looked up.
-/

namespace Multistage

inductive Fault
  | emptyMap
  | partitionCount (count : Nat)
  | classWidth (bits : Nat)
  | stageCount (widths stages : Nat)
  | ragged (length blockBits : Nat)
  | widthTotal (total needed : Nat)
  | blockTooNarrow (blockBits needed : Nat)
  | noPartition
  | entryTooBig (table : String) (entry bits : Nat)
  | literal (cause : Literal.Fault)
  deriving DecidableEq

namespace Fault

def message : Fault → String
  | emptyMap => "character map is empty"
  | partitionCount count => s!"partition count {count} outside 1..=26"
  | classWidth bits => s!"unsupported value width {bits}, expected 1, 2, 4, 8 or 16"
  | stageCount widths stages => s!"{widths} partition sizes for {stages} levels"
  | ragged length blockBits => s!"length {length} is not a multiple of 2^{blockBits}"
  | widthTotal total needed => s!"bit widths total {total}, map needs {needed}"
  | blockTooNarrow blockBits needed =>
      s!"final block of 2^{blockBits} values narrower than a 2^{needed} storage unit"
  | noPartition => "no partition fits the map"
  | entryTooBig table entry bits => s!"{table}: entry {entry} does not fit in {bits} bits"
  | literal cause => "cmap_pack: " ++ cause.message

end Fault

end Multistage
