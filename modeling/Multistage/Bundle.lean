import Multistage.Choice
import Multistage.Listing

/-!
Everything a code generator needs to look up the classes of a map: the written tables and the
formula that reads them, with the widths they were made for.
-/

namespace Multistage

structure Bundle where
  widths : List Nat
  stages : List Stage
  width : ClassWidth
  listings : List Listing
  formula : Formula
  bytes : Nat

structure Settings where
  partitions : Nat := 3
  width : ClassWidth := .sixteen
  table : String := "ZZ_CMAP_A"
  input : String := "ch"

namespace Bundle

/-- The tables of a layout and their lookup formula. The formula is made first, so a fault in
the widths goes before one in the entries. -/
def ofLayout (layout : Layout) (table input : String) : Except Fault Bundle := do
  let formula ← Formula.lookup table input layout.width layout.widths layout.stages
  let listings ← Listing.ofLayout layout table
  return {
    widths := layout.widths
    stages := layout.stages
    width := layout.width
    listings
    formula
    bytes := layout.totalBytes }

def ofWidths (map : Table) (widths : List Nat) (width : ClassWidth) (table input : String) :
    Except Fault Bundle := do
  ofLayout (← Layout.ofMap map widths width) table input

def ofSearch (map : Table) (search : Search) (settings : Settings) : Except Fault Bundle :=
  ofWidths map search.choice.widths settings.width settings.table settings.input

def ofMap (map : List UInt16) (settings : Settings) : Except Fault Bundle := do
  let map := map.map UInt16.toNat
  ofSearch map (← Search.ofMap map settings.partitions settings.width) settings

end Bundle

end Multistage
