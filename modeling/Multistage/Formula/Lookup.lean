import Multistage.ClassWidth
import Multistage.Formula.Basic
import Multistage.Stage
import Multistage.Widths

/-!
The lookup formula for given widths and stages: every stage fetches from its table at a position
made of what the stage above fetched and of the input's next bits.
-/

namespace Multistage

def indexName (stage : Nat) : String :=
  "ZZ_CMAP_" ++ String.singleton (Char.ofNat ('Z'.toNat - stage))

namespace Formula

def lowBits (count : Nat) : Nat :=
  if count < 32 then 1 <<< count - 1 else 0xFFFFFFFF

def shifted (word : Formula) (distance : Nat) : Formula :=
  if distance = 0 then word else shr word (num distance)

def position (base : Option Formula) (slice : Formula) (bits : Nat) : Formula :=
  match base with
  | none => slice
  | some base => if bits = 0 then base else or base (and slice (mask (lowBits bits)))

def fetch (stage : Stage) (table : String) (position : Formula) : Formula :=
  let entry := index table position
  let entry := if stage.extendMask = 0 then entry else and entry (mask stage.extendMask)
  if stage.preshifted ∨ stage.nextBits = 0 then entry else shl entry (num stage.nextBits)

def select (width : ClassWidth) (word unit : Formula) : Formula :=
  if width.isPacked then
    let place := and word (mask (lowBits width.unitExponent))
    let scale := Nat.log2 width.bits
    let distance := if scale = 0 then place else shl place (num scale)
    and (shr unit distance) (mask width.max)
  else
    unit

/-- Goes down the stages from number `depth` on. Each comes as its bits and itself; the current
one is apart from the finer ones below it. -/
def descend (table : String) (word : Formula) (width : ClassWidth) (depth : Nat)
    (base : Option Formula) (current : Nat × Stage) : List (Nat × Stage) → Formula
  | [] =>
      let (bits, stage) := current
      let slice := shifted word (stage.shift + width.unitExponent)
      select width word
        (fetch stage table (position base slice (bits - width.unitExponent)))
  | next :: finer =>
      let (bits, stage) := current
      let entry := fetch stage (indexName depth)
        (position base (shifted word stage.shift) bits)
      descend table word width (depth + 1) (some entry) next finer

def lookup (table name : String) (width : ClassWidth) (widths : List Nat)
    (stages : List Stage) : Except Fault Formula :=
  if widths.length ≠ stages.length then
    .error (.stageCount widths.length stages.length)
  else
    match widths.zip stages with
    | [] => .error (.stageCount widths.length stages.length)
    | coarsest :: finer =>
        if mostStages < widths.length then
          .error (.partitionCount widths.length)
        else
          .ok (descend table (input name) width 0 none coarsest finer)

end Formula

end Multistage
