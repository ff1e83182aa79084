import Multistage.Layout

/-!
The search for the widths whose tables take the fewest bytes. Candidates are tried in a fixed
order and only a strictly cheaper one replaces the choice, so the earliest of the cheapest wins.
-/

namespace Multistage

inductive Cost
  | bytes (count : Nat)
  | infeasible
  deriving DecidableEq

namespace Cost

def toNat : Cost → Nat
  | bytes count => count
  | infeasible => 0xFFFFFFFFFFFFFFFF

def ofNat (number : Nat) : Cost :=
  if number = 0xFFFFFFFFFFFFFFFF then infeasible else bytes number

end Cost

structure Trial where
  widths : List Nat
  outcome : Except Fault Nat

namespace Trial

def run (map : Table) (width : ClassWidth) (widths : List Nat) : Trial :=
  { widths, outcome := (Layout.ofMap map widths width).map Layout.totalBytes }

def cost (trial : Trial) : Cost :=
  match trial.outcome with
  | .ok count => .bytes count
  | .error _ => .infeasible

end Trial

structure Choice where
  widths : List Nat
  bytes : Nat
  deriving DecidableEq

namespace Choice

def cheaper (best : Option Choice) (widths : List Nat) (cost : Cost) : Option Choice :=
  match cost, best with
  | .infeasible, _ => best
  | .bytes count, none => some ⟨widths, count⟩
  | .bytes count, some choice =>
      if count < choice.bytes then some ⟨widths, count⟩ else best

def ofTrials (trials : List Trial) : Option Choice :=
  trials.foldl (fun best trial => cheaper best trial.widths trial.cost) none

end Choice

structure Search where
  trials : List Trial
  choice : Choice

namespace Search

def ofMap (map : Table) (partitions : Nat) (width : ClassWidth) : Except Fault Search :=
  if map.isEmpty then
    .error .emptyMap
  else if partitions < 1 ∨ mostStages < partitions then
    .error (.partitionCount partitions)
  else
    let trials := (candidates partitions (addressBits map.length)).map (Trial.run map width)
    match Choice.ofTrials trials with
    | none => .error .noPartition
    | some choice => .ok { trials, choice }

end Search

end Multistage
