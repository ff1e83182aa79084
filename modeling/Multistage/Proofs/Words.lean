import Mathlib.Algebra.Order.Ring.Nat
import Multistage.Decoded
import Multistage.Proofs.Segments

/-!
Numbers taken apart into 16-bit values and put together again, and classes packed into words.
-/

namespace Multistage

theorem or_shiftLeft (low high bits : Nat) (bound : low < 2 ^ bits) :
    low ||| high <<< bits = high * 2 ^ bits + low := by
  rw [Nat.or_comm, ← Nat.shiftLeft_add_eq_or_of_lt bound, Nat.shiftLeft_eq]

theorem toNat_toUInt16 (number : Nat) (bound : number < 2 ^ 16) :
    number.toUInt16.toNat = number :=
  UInt16.toNat_ofNat_of_lt bound

theorem map_toNat_toUInt16 (numbers : List Nat) (bound : ∀ number ∈ numbers, number < 2 ^ 16) :
    (numbers.map Nat.toUInt16).map UInt16.toNat = numbers := by
  rw [List.map_map]
  conv => rhs; rw [← List.map_id numbers]
  apply List.map_congr_left
  intro number member
  exact toNat_toUInt16 number (bound number member)

namespace Decoded

theorem join_halves (word : Nat) (bound : word < 2 ^ 32) :
    word.toUInt16.toNat ||| (word >>> 16).toUInt16.toNat <<< 16 = word := by
  have low : word.toUInt16.toNat = word % 2 ^ 16 := UInt16.toNat_ofNat'
  have high : (word >>> 16).toUInt16.toNat = word / 2 ^ 16 := by
    rw [toNat_toUInt16 _ (by rw [Nat.shiftRight_eq_div_pow]; omega), Nat.shiftRight_eq_div_pow]
  rw [low, high, or_shiftLeft _ _ _ (Nat.mod_lt _ (by omega)), Nat.div_add_mod']

theorem joinOnto_halves (before : Array Nat) (words : List Nat)
    (bound : ∀ word ∈ words, word < 2 ^ 32) :
    joinOnto before (words.flatMap Listing.halves) = before ++ words.toArray := by
  induction words generalizing before with
  | nil => simp [joinOnto]
  | cons word later ih =>
      rw [List.flatMap_cons, Listing.halves, List.cons_append, List.cons_append, List.nil_append,
        joinOnto, join_halves word (bound word List.mem_cons_self),
        ih _ fun one member => bound one (List.mem_cons_of_mem _ member)]
      simp

end Decoded

namespace Listing

theorem length_flatMap_halves (words : List Nat) :
    (words.flatMap halves).length = 2 * words.length := by
  induction words with
  | nil => rfl
  | cons word later ih =>
      rw [List.flatMap_cons, List.length_append, ih, List.length_cons, halves]
      simp only [List.length_cons, List.length_nil]
      omega

theorem unitWord_cons (bits value : Nat) (classes : List Nat) (bound : value < 2 ^ bits) :
    unitWord bits (value :: classes) = unitWord bits classes * 2 ^ bits + value :=
  or_shiftLeft value _ bits bound

theorem unitWord_lt (bits : Nat) (classes : List Nat)
    (bound : ∀ value ∈ classes, value < 2 ^ bits) :
    unitWord bits classes < 2 ^ (bits * classes.length) := by
  induction classes with
  | nil => simp [unitWord]
  | cons value later ih =>
      have first := bound value List.mem_cons_self
      have rest := ih fun one member => bound one (List.mem_cons_of_mem _ member)
      rw [unitWord_cons bits value later first, List.length_cons, Nat.mul_add, Nat.mul_one,
        Nat.pow_add]
      calc unitWord bits later * 2 ^ bits + value
          < unitWord bits later * 2 ^ bits + 2 ^ bits := Nat.add_lt_add_left first _
        _ = (unitWord bits later + 1) * 2 ^ bits := by rw [Nat.add_mul, Nat.one_mul]
        _ ≤ 2 ^ (bits * later.length) * 2 ^ bits := Nat.mul_le_mul_right _ rest

theorem unitWord_shiftRight (bits place value : Nat) (classes : List Nat)
    (bound : ∀ value ∈ classes, value < 2 ^ bits) (found : classes[place]? = some value) :
    (unitWord bits classes >>> (place * bits)) % 2 ^ bits = value := by
  induction classes generalizing place with
  | nil => simp at found
  | cons first later ih =>
      have firstBound := bound first List.mem_cons_self
      rw [unitWord_cons bits first later firstBound]
      cases place with
      | zero =>
          obtain rfl : first = value := by simpa using found
          rw [Nat.zero_mul, Nat.shiftRight_zero, Nat.mul_add_mod', Nat.mod_eq_of_lt firstBound]
      | succ place =>
          have shifted : (unitWord bits later * 2 ^ bits + first) >>> bits =
              unitWord bits later := by
            rw [Nat.shiftRight_eq_div_pow, Nat.mul_comm, Nat.mul_add_div (Nat.two_pow_pos bits),
              Nat.div_eq_of_lt firstBound, Nat.add_zero]
          rw [Nat.add_mul, Nat.one_mul, Nat.add_comm (place * bits), Nat.shiftRight_add, shifted]
          exact ih place (fun one member => bound one (List.mem_cons_of_mem _ member))
            (by simpa using found)

theorem perUnit_eq (width : ClassWidth) (packed : width.isPacked = true) :
    width.perUnit = 2 ^ width.unitExponent := by
  cases width <;> simp_all [ClassWidth.isPacked, ClassWidth.perUnit, ClassWidth.unitExponent,
    ClassWidth.bits]

theorem lt_two_pow_bits (width : ClassWidth) (value : Nat) (fits : value ≤ width.max) :
    value < 2 ^ width.bits := by
  have positive := Nat.two_pow_pos width.bits
  rw [ClassWidth.max] at fits
  omega

theorem getElem?_unitWords (width : ClassWidth) (classes : Table) (unit : Nat) :
    (unitWords width classes)[unit]? =
      if unit < (classes.length + width.perUnit - 1) / width.perUnit then
        some (unitWord width.bits ((classes.drop (unit * width.perUnit)).take width.perUnit))
      else none := by
  rw [unitWords, Table.blocks_eq_range, List.map_map]
  split
  · rename_i inside
    simp [inside]
  · rename_i outside
    simp [Nat.le_of_not_lt outside]

theorem unitWords_lt (width : ClassWidth) (classes : Table)
    (fits : ∀ value ∈ classes, value ≤ width.max) :
    ∀ word ∈ unitWords width classes, word < 2 ^ 32 := by
  intro word member
  obtain ⟨unit, found⟩ := List.mem_iff_getElem?.mp member
  rw [getElem?_unitWords] at found
  split at found
  · rw [← Option.some.inj found]
    refine Nat.lt_of_lt_of_le (unitWord_lt width.bits _ ?_) (Nat.pow_le_pow_right (by omega) ?_)
    · intro value present
      exact lt_two_pow_bits width value
        (fits value (List.mem_of_mem_drop (List.mem_of_mem_take present)))
    · rw [← ClassWidth.perUnit_mul_bits width, Nat.mul_comm]
      exact Nat.mul_le_mul_right _ (List.length_take_le _ _)
  · simp at found

theorem exists_unitWord (width : ClassWidth) (classes : Table) (packed : width.isPacked = true)
    (fits : ∀ value ∈ classes, value ≤ width.max) (place value : Nat)
    (found : classes[place]? = some value) :
    ∃ word, (unitWords width classes)[place / width.perUnit]? = some word ∧
      (word >>> (place % width.perUnit * width.bits)) % 2 ^ width.bits = value := by
  obtain ⟨bound, _⟩ := List.getElem?_eq_some_iff.mp found
  have positive : 0 < width.perUnit := by
    rw [perUnit_eq width packed]
    exact Nat.two_pow_pos _
  have inside : place / width.perUnit <
      (classes.length + width.perUnit - 1) / width.perUnit := by
    rw [Nat.div_lt_iff_lt_mul positive]
    have cover := Nat.lt_mul_div_succ (classes.length - 1) positive
    have count : (classes.length + width.perUnit - 1) / width.perUnit =
        (classes.length - 1) / width.perUnit + 1 := by
      rw [← Nat.add_div_right _ positive]
      congr 1
      omega
    rw [count, Nat.mul_comm]
    omega
  rw [getElem?_unitWords, if_pos inside]
  refine ⟨_, rfl, unitWord_shiftRight _ _ _ _ ?_ ?_⟩
  · intro one member
    exact lt_two_pow_bits width one
      (fits one (List.mem_of_mem_drop (List.mem_of_mem_take member)))
  · rw [List.getElem?_take_of_lt (Nat.mod_lt _ positive), List.getElem?_drop, Nat.div_add_mod',
      found]

theorem length_unitWords (width : ClassWidth) (classes : Table) :
    (unitWords width classes).length = (classes.length + width.perUnit - 1) / width.perUnit := by
  simp [unitWords, Table.length_blocks]

theorem testBit_unitWords (width : ClassWidth) (classes : Table)
    (fits : ∀ value ∈ classes, value ≤ width.max) (unit word bit : Nat)
    (found : (unitWords width classes)[unit]? = some word)
    (past : classes.length * width.bits ≤ unit * 32 + bit) : word.testBit bit = false := by
  rw [getElem?_unitWords] at found
  split at found
  · have small : word < 2 ^ (width.bits *
        ((classes.drop (unit * width.perUnit)).take width.perUnit).length) := by
      rw [← Option.some.inj found]
      apply unitWord_lt
      intro value member
      exact lt_two_pow_bits width value
        (fits value (List.mem_of_mem_drop (List.mem_of_mem_take member)))
    have held : width.bits * ((classes.drop (unit * width.perUnit)).take width.perUnit).length ≤
        bit := by
      have before : unit * width.perUnit * width.bits = unit * 32 := by
        rw [Nat.mul_assoc, width.perUnit_mul_bits]
      have rest := Nat.mul_le_mul_left width.bits
        (Nat.min_le_right width.perUnit (classes.length - unit * width.perUnit))
      have split := Nat.sub_mul classes.length (unit * width.perUnit) width.bits
      rw [List.length_take, List.length_drop]
      rw [Nat.mul_comm width.bits (classes.length - _)] at rest
      omega
    exact Nat.testBit_lt_two_pow
      (Nat.lt_of_lt_of_le small (Nat.pow_le_pow_right (by omega) held))
  · simp at found

theorem unitWords_past (width : ClassWidth) (classes : Table)
    (fits : ∀ value ∈ classes, value ≤ width.max) (place word : Nat)
    (found : (unitWords width classes)[place / width.perUnit]? = some word)
    (past : classes.length ≤ place) : word >>> (place % width.perUnit * width.bits) = 0 := by
  apply Nat.eq_of_testBit_eq
  intro bit
  rw [Nat.testBit_shiftRight, Nat.zero_testBit]
  apply testBit_unitWords width classes fits _ word _ found
  have start : place / width.perUnit * 32 + place % width.perUnit * width.bits =
      place * width.bits := by
    rw [← width.perUnit_mul_bits, ← Nat.mul_assoc, ← Nat.add_mul, Nat.div_add_mod']
  have later := Nat.mul_le_mul_right width.bits past
  omega

end Listing

end Multistage
