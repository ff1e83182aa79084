import Multistage.Bundle
import Multistage.Proofs.Outcome

/-!
What went into a bundle that was made.
-/

namespace Multistage.Bundle

theorem ofLayout_eq_ok_iff (layout : Layout) (table input : String) (bundle : Bundle) :
    ofLayout layout table input = .ok bundle ↔
      ∃ formula listings,
        Formula.lookup table input layout.width layout.widths layout.stages = .ok formula ∧
        Listing.ofLayout layout table = .ok listings ∧
        bundle = { widths := layout.widths, stages := layout.stages, width := layout.width,
                   listings, formula, bytes := layout.totalBytes } := by
  simp only [ofLayout, bind_eq_ok_iff, pure_eq_ok_iff]
  constructor
  · rintro ⟨formula, found, listings, written, rfl⟩
    exact ⟨formula, listings, found, written, rfl⟩
  · rintro ⟨formula, listings, found, written, rfl⟩
    exact ⟨formula, found, listings, written, rfl⟩

theorem ofWidths_eq_ok_iff (map : Table) (widths : List Nat) (width : ClassWidth)
    (table input : String) (bundle : Bundle) :
    ofWidths map widths width table input = .ok bundle ↔
      ∃ layout, Layout.ofMap map widths width = .ok layout ∧
        ofLayout layout table input = .ok bundle := by
  rw [ofWidths, bind_eq_ok_iff]

theorem ofMap_eq_ok_iff (map : List UInt16) (settings : Settings) (bundle : Bundle) :
    ofMap map settings = .ok bundle ↔
      ∃ search,
        Search.ofMap (map.map UInt16.toNat) settings.partitions settings.width = .ok search ∧
        ofWidths (map.map UInt16.toNat) search.choice.widths settings.width settings.table
          settings.input = .ok bundle := by
  simp only [ofMap, bind_eq_ok_iff, ofSearch]

end Multistage.Bundle
