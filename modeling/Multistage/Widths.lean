/-!
Ways to share out the bits of an input among the stages of a lookup.
-/

namespace Multistage

def mostStages : Nat :=
  26

def addressBits (length : Nat) : Nat :=
  if length ≤ 1 then 0 else Nat.log2 (length - 1) + 1

/-- In lexicographic order, the vectors of `count` widths that add up to `total` and have no zero
but perhaps the last. -/
def widthVectors : Nat → Nat → List (List Nat)
  | 0, _ => []
  | 1, total => [[total]]
  | count + 2, total =>
      (List.range' 1 total).flatMap fun first =>
        (widthVectors (count + 1) (total - first)).map (first :: ·)

/-- The vectors a search looks at: the longest, of `partitions` widths, come first. -/
def candidates (partitions total : Nat) : List (List Nat) :=
  (List.range' 1 partitions).reverse.flatMap (widthVectors · total)

end Multistage
