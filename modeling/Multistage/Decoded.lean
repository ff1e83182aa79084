import Multistage.Bundle
import Multistage.Literal.Decode

/-!
A bundle read back: the texts of its literals are decoded into tables, and the formula is
evaluated on them.
-/

namespace Multistage

/-- Tables ready for lookup, the latest first; a table hides earlier ones of its name. -/
structure Decoded where
  tables : List (String × Array Nat)
  formula : Formula

namespace Decoded

def joinOnto : Array Nat → List UInt16 → Array Nat
  | entries, low :: high :: values =>
      joinOnto (entries.push (low.toNat ||| high.toNat <<< 16)) values
  | entries, _ => entries

def entries (wide : Bool) (values : List UInt16) : Array Nat :=
  if wide then joinOnto #[] values else (values.map UInt16.toNat).toArray

def read (listing : Listing) (wide : Bool) : Except Fault (String × Array Nat) :=
  -- A written table is far too short for `Literal.load` to stop over its length.
  match Literal.decode listing.literal.text listing.length with
  | .ok values => .ok (listing.name, entries wide values)
  | .error cause => .error (.literal cause)

/-- Reads listings in their order. The last one holds classes, which are wide if packed; an index
is wide if its stage has entries of four bytes. -/
def readOnto (width : ClassWidth) (tables : List (String × Array Nat)) :
    List Listing → List Stage → Except Fault (List (String × Array Nat))
  | [], _ => .ok tables
  | [listing], _ => do
      return (← read listing width.isPacked) :: tables
  | listing :: next :: listings, stages => do
      let table ← read listing (stages.head?.any fun stage => stage.entryBytes == 4)
      readOnto width (table :: tables) (next :: listings) stages.tail

def ofBundle (bundle : Bundle) : Except Fault Decoded := do
  let tables ← readOnto bundle.width [] bundle.listings bundle.stages
  return { tables, formula := bundle.formula }

def table? (decoded : Decoded) (name : String) : Option (Array Nat) :=
  decoded.tables.lookup name

def fetch? (decoded : Decoded) (name : String) (position : Nat) : Option Nat := do
  (← decoded.table? name)[position]?

def get? (decoded : Decoded) (value : Nat) : Option Nat :=
  decoded.formula.eval? decoded.fetch? value

end Decoded

end Multistage
