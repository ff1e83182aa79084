/-!
Runs of equal values. A run holds at most 65535 values, the largest count that one 16-bit unit
can tell; a longer stretch becomes several runs.
-/

namespace Multistage.Literal

structure Run where
  count : Nat
  value : UInt16
  deriving DecidableEq

namespace Run

def longest : Nat :=
  0xFFFF

def expand (run : Run) : List UInt16 :=
  List.replicate run.count run.value

def units (run : Run) : List UInt16 :=
  [run.count.toUInt16, run.value]

def push (runs : List Run) (value : UInt16) : List Run :=
  match runs with
  | [] => [⟨1, value⟩]
  | latest :: earlier =>
      if latest.value = value ∧ latest.count < longest then
        ⟨latest.count + 1, value⟩ :: earlier
      else
        ⟨1, value⟩ :: latest :: earlier

end Run

end Multistage.Literal
