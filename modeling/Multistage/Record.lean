import Multistage.Bundle
import Multistage.Formula.Text

/-!
What is told about a search and about the making of a bundle, in the order of events.
-/

namespace Multistage

inductive Record
  | infeasible (widths : List Nat) (cause : Fault)
  | tried (widths : List Nat) (cost : Cost)
  | chosen (choice : Choice)
  | made (length : Nat) (bundle : Bundle)

namespace Record

def widthsText (widths : List Nat) : String :=
  "[" ++ ", ".intercalate (widths.map Nat.repr) ++ "]"

def level : Record → String
  | infeasible _ _ => "TRACE"
  | tried _ _ => "TRACE"
  | chosen _ => "DEBUG"
  | made _ _ => "DEBUG"

def message : Record → String
  | infeasible widths cause => s!"{widthsText widths} infeasible: {cause.message}"
  | tried widths cost => s!"{widthsText widths} -> {cost.toNat}"
  | chosen choice => s!"best sizes {widthsText choice.widths}: {choice.bytes} bytes"
  | made length bundle =>
      let made := s!"{length} values -> {widthsText bundle.widths}, {bundle.bytes} bytes: "
      made ++ bundle.formula.text

def line (record : Record) : String :=
  s!"{record.level} {record.message}"

end Record

namespace Trial

def causes (trial : Trial) : List Record :=
  match trial.outcome with
  | .ok _ => []
  | .error cause => [.infeasible trial.widths cause]

def records (trial : Trial) : List Record :=
  trial.causes ++ [.tried trial.widths trial.cost]

end Trial

namespace Search

def records (search : Search) : List Record :=
  search.trials.flatMap Trial.records ++ [.chosen search.choice]

def told (map : Table) (partitions : Nat) (width : ClassWidth) :
    Except Fault Search × List Record :=
  match ofMap map partitions width with
  | .ok search => (.ok search, search.records)
  | .error fault => (.error fault, [])

end Search

namespace Bundle

def told (map : List UInt16) (settings : Settings) : Except Fault Bundle × List Record :=
  let map := map.map UInt16.toNat
  match Search.ofMap map settings.partitions settings.width with
  | .error fault => (.error fault, [])
  | .ok search =>
      match ofSearch map search settings with
      | .ok bundle => (.ok bundle, search.records ++ [.made map.length bundle])
      | .error fault => (.error fault, search.records)

theorem told_fst (map : List UInt16) (settings : Settings) :
    (told map settings).1 = ofMap map settings := by
  simp only [told, ofMap]
  cases Search.ofMap (map.map UInt16.toNat) settings.partitions settings.width with
  | error fault => rfl
  | ok search =>
      change Prod.fst (match ofSearch (map.map UInt16.toNat) search settings with
        | .ok bundle => (.ok bundle, _)
        | .error fault => (.error fault, _)) = ofSearch (map.map UInt16.toNat) search settings
      cases ofSearch (map.map UInt16.toNat) search settings <;> rfl

end Bundle

end Multistage
