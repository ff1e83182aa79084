import Multistage.Fault

/-!
How many bits a class number takes. Classes of one, two or four bits are packed,
several to a storage unit of 32 bits; wider ones have a 16-bit slot each.
-/

namespace Multistage

inductive ClassWidth
  | one
  | two
  | four
  | eight
  | sixteen
  deriving DecidableEq

namespace ClassWidth

instance : Inhabited ClassWidth := ⟨sixteen⟩

def bits : ClassWidth → Nat
  | one => 1
  | two => 2
  | four => 4
  | eight => 8
  | sixteen => 16

/-- Two to this power is the number of classes in a storage unit; zero stands for "not packed". -/
def unitExponent : ClassWidth → Nat
  | one => 5
  | two => 4
  | four => 3
  | eight => 0
  | sixteen => 0

def isPacked (width : ClassWidth) : Bool :=
  width.unitExponent != 0

def slotBits (width : ClassWidth) : Nat :=
  if width.isPacked then width.bits else 16

def perUnit (width : ClassWidth) : Nat :=
  32 / width.bits

def max (width : ClassWidth) : Nat :=
  1 <<< width.bits - 1

def ofBits : Nat → Except Fault ClassWidth
  | 1 => .ok one
  | 2 => .ok two
  | 4 => .ok four
  | 8 => .ok eight
  | 16 => .ok sixteen
  | bits => .error (.classWidth bits)

theorem ofBits_bits (width : ClassWidth) : ofBits width.bits = .ok width := by
  cases width <;> rfl

theorem perUnit_mul_bits (width : ClassWidth) : width.perUnit * width.bits = 32 := by
  cases width <;> rfl

end ClassWidth

end Multistage
