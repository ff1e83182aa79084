import Std.Data.HashMap

/-!
Numbering by first appearance: every item of a list gets the number of distinct items met
before its first occurrence. `index` holds the numbers in the order of the list, `distinct` the
items in the order of their numbers.
-/

namespace Multistage

structure Numbering (α : Type) where
  index : List Nat
  distinct : List α

namespace Numbering

structure Progress (α : Type) [BEq α] [Hashable α] where
  numbers : Std.HashMap α Nat
  index : Array Nat
  distinct : Array α

variable {α : Type} [BEq α] [Hashable α]

namespace Progress

def start : Progress α :=
  { numbers := ∅, index := #[], distinct := #[] }

def add (progress : Progress α) (item : α) : Progress α :=
  match progress.numbers[item]? with
  | some number => { progress with index := progress.index.push number }
  | none =>
      { numbers := progress.numbers.insert item progress.distinct.size
        index := progress.index.push progress.distinct.size
        distinct := progress.distinct.push item }

end Progress

def ofList (items : List α) : Numbering α :=
  let progress := items.foldl Progress.add Progress.start
  { index := progress.index.toList, distinct := progress.distinct.toList }

end Numbering

end Multistage
