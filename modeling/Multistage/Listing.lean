import Multistage.Formula.Lookup
import Multistage.Layout
import Multistage.Literal.Basic

/-!
Tables as they are written out: a name, the number of 16-bit values, and the literal that holds
them. An entry that does not fit its place is refused.
-/

namespace Multistage

structure Listing where
  name : String
  length : Nat
  literal : Literal
  deriving DecidableEq

namespace Listing

def text (listing : Listing) : String :=
  s!"  /* The {listing.name} table has {listing.length} entries */\n" ++ listing.literal.text

def halves (word : Nat) : List UInt16 :=
  [word.toUInt16, (word >>> 16).toUInt16]

/-- An index entry in a register of 64 bits, moved to where its stage wants it stored. -/
def register (stage : Stage) (entry : Nat) : Nat :=
  (entry <<< (if stage.preshifted then stage.nextBits else 0)) % 0x10000000000000000

def ofIndex (name : String) (entries : Table) (stage : Stage) : Except Fault Listing :=
  let bits := 8 * stage.entryBytes
  let registers := entries.map (register stage)
  match registers.find? fun entry => entry >>> bits != 0 with
  | some entry => .error (.entryTooBig name entry bits)
  | none =>
      if 16 < bits then
        .ok { name
              length := 2 * entries.length
              literal := .ofValues (registers.flatMap halves) }
      else
        .ok { name
              length := entries.length
              literal := .ofValues (registers.map Nat.toUInt16) }

def unitWord (bits : Nat) (classes : List Nat) : Nat :=
  classes.foldr (fun value word => value ||| word <<< bits) 0

def unitWords (width : ClassWidth) (classes : Table) : List Nat :=
  (classes.blocks width.perUnit ((classes.length + width.perUnit - 1) / width.perUnit)).map
    (unitWord width.bits)

def ofClasses (name : String) (classes : Table) (width : ClassWidth) : Except Fault Listing :=
  match classes.find? fun value => width.max < value with
  | some value => .error (.entryTooBig name value width.bits)
  | none =>
      if width.isPacked then
        let words := unitWords width classes
        .ok { name, length := 2 * words.length, literal := .ofValues (words.flatMap halves) }
      else
        .ok { name
              length := classes.length
              literal := .ofValues (classes.map Nat.toUInt16) }

def ofIndices (depth : Nat) : List Table → List Stage → Except Fault (List Listing)
  | entries :: tables, stage :: stages => do
      let listing ← ofIndex (indexName depth) entries stage
      return listing :: (← ofIndices (depth + 1) tables stages)
  | _, _ => .ok []

def ofLayout (layout : Layout) (table : String) : Except Fault (List Listing) :=
  if mostStages < layout.tables.length then
    .error (.partitionCount layout.tables.length)
  else
    match layout.tables.getLast? with
    | none => .ok []
    | some classes => do
        let indices ← ofIndices 0 layout.tables.dropLast layout.stages
        return indices ++ [← ofClasses table classes layout.width]

end Listing

end Multistage
