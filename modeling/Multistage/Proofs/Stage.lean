import Mathlib.Algebra.Order.Ring.Nat
import Mathlib.Order.Bounds.Defs
import Multistage.Stage

/-!
What a stage promises of its entries: they have room in its bytes, survive its mask, and become
the position of a block once they are moved to the left.
-/

namespace Multistage.Stage

theorem one_le_bytesFor (reach : Nat) : 1 ≤ bytesFor reach := by
  rw [bytesFor]
  split
  · omega
  · split <;> omega

theorem bytesFor_eq (reach : Nat) :
    bytesFor reach = 1 ∨ bytesFor reach = 2 ∨ bytesFor reach = 4 := by
  rw [bytesFor]
  split
  · simp
  · split <;> simp

theorem le_two_pow_bytesFor (reach : Nat) (bound : reach ≤ 2 ^ 32) :
    reach ≤ 2 ^ (8 * bytesFor reach) := by
  rw [bytesFor]
  split_ifs <;> omega

theorem and_maskFor (reach entry : Nat) (below : entry < reach) (masked : maskFor reach ≠ 0) :
    entry &&& maskFor reach = entry := by
  rw [maskFor] at masked ⊢
  split at masked
  · rename_i range
    rw [if_pos range, Nat.and_two_pow_sub_one_eq_mod _ 16]
    exact Nat.mod_eq_of_lt (by omega)
  · simp at masked

def reach (length nextBits : Nat) : Nat :=
  if numbersSaveBytes length nextBits then length >>> nextBits else length

theorem reach_le (length nextBits : Nat) : reach length nextBits ≤ length := by
  rw [reach]
  split
  · exact Nat.shiftRight_le _ _
  · exact Nat.le_refl _

theorem entryBytes_pointing (length nextBits shift : Nat) :
    (pointing length nextBits shift).entryBytes = bytesFor (length >>> nextBits) := by
  change bytesFor (reach length nextBits) = _
  have fewer : length >>> nextBits ≤ length := Nat.shiftRight_le length nextBits
  rw [reach]
  split
  · rfl
  · rename_i save
    simp only [numbersSaveBytes, Bool.or_eq_true, Bool.and_eq_true, decide_eq_true_eq] at save
    simp only [bytesFor]
    split_ifs <;> omega

def storedShift (stage : Stage) : Nat :=
  if stage.preshifted then stage.nextBits else 0

def moved (stage : Stage) (entry : Nat) : Nat :=
  entry * 2 ^ stage.storedShift

theorem moved_lt (stage : Stage) (entry : Nat) (short : entry < 2 ^ 32)
    (near : stage.nextBits ≤ 32) : stage.moved entry < 2 ^ 64 := by
  have shift : stage.storedShift ≤ 32 := by
    rw [storedShift]
    split <;> omega
  calc entry * 2 ^ stage.storedShift
      < 2 ^ 32 * 2 ^ stage.storedShift := Nat.mul_lt_mul_of_pos_right short (Nat.two_pow_pos _)
    _ ≤ 2 ^ 32 * 2 ^ 32 := Nat.mul_le_mul_left _ (Nat.pow_le_pow_right (by omega) shift)
    _ = 2 ^ 64 := by rw [← Nat.pow_add]

theorem position_lt (length nextBits number : Nat) (bound : number < length >>> nextBits) :
    number * 2 ^ nextBits < length := by
  rw [Nat.shiftRight_eq_div_pow, Nat.lt_div_iff_mul_lt (Nat.two_pow_pos _)] at bound
  omega

theorem stored_lt_reach (length nextBits shift number : Nat)
    (bound : number < length >>> nextBits) :
    number <<< (pointing length nextBits shift).storedShift < reach length nextBits := by
  have position := position_lt length nextBits number bound
  rw [reach]
  cases numbers : numbersSaveBytes length nextBits with
  | true => simpa [storedShift, pointing, numbers] using bound
  | false => simpa [storedShift, pointing, numbers, Nat.shiftLeft_eq] using position

theorem stored_lt_two_pow (length nextBits shift number : Nat) (short : length ≤ 2 ^ 32)
    (bound : number < length >>> nextBits) :
    number <<< (pointing length nextBits shift).storedShift <
      2 ^ (8 * (pointing length nextBits shift).entryBytes) :=
  Nat.lt_of_lt_of_le (stored_lt_reach length nextBits shift number bound)
    (le_two_pow_bytesFor _ (Nat.le_trans (reach_le length nextBits) short))

theorem stored_and_extendMask (length nextBits shift number : Nat)
    (bound : number < length >>> nextBits)
    (masked : (pointing length nextBits shift).extendMask ≠ 0) :
    number <<< (pointing length nextBits shift).storedShift &&&
        (pointing length nextBits shift).extendMask =
      number <<< (pointing length nextBits shift).storedShift :=
  and_maskFor _ _ (stored_lt_reach length nextBits shift number bound) masked

end Multistage.Stage
