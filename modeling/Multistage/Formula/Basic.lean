/-!
Lookup formulas: what a generated program computes to find the class of an input. Values are
words of 32 bits; a formula has no value where a table lacks the entry or a shift is too far.
-/

namespace Multistage

inductive Formula
  | input (name : String)
  | num (value : Nat)
  | mask (value : Nat)
  | shr (left right : Formula)
  | shl (left right : Formula)
  | and (left right : Formula)
  | or (left right : Formula)
  | index (table : String) (position : Formula)
  deriving DecidableEq

namespace Formula

def shiftRight? (word distance : Nat) : Option Nat :=
  if distance < 32 then some (word >>> distance) else none

def shiftLeft? (word distance : Nat) : Option Nat :=
  if distance < 32 then some ((word <<< distance) % 0x100000000) else none

def eval? (fetch? : String → Nat → Option Nat) (value : Nat) : Formula → Option Nat
  | input _ => some value
  | num constant => some constant
  | mask constant => some constant
  | shr left right => do
      shiftRight? (← left.eval? fetch? value) (← right.eval? fetch? value)
  | shl left right => do
      shiftLeft? (← left.eval? fetch? value) (← right.eval? fetch? value)
  | and left right => do
      return (← left.eval? fetch? value) &&& (← right.eval? fetch? value)
  | or left right => do
      return (← left.eval? fetch? value) ||| (← right.eval? fetch? value)
  | index table position => do
      fetch? table (← position.eval? fetch? value)

end Formula

end Multistage
