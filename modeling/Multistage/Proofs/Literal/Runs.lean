import Mathlib.Algebra.Order.Ring.Nat
import Multistage.Literal.Basic
import Multistage.Literal.Decode

/-!
Runs lose nothing: expanded one after the other they give back the values, and so do their units
when these are read in pairs. Reserving room for the values first changes nothing but that the
program stops over a length for which there is none.
-/

namespace Multistage.Literal

namespace Run

structure Sound (run : Run) : Prop where
  some : 1 ≤ run.count
  short : run.count ≤ longest

def values (runs : List Run) : List UInt16 :=
  runs.reverse.flatMap expand

theorem values_push (runs : List Run) (value : UInt16) :
    values (push runs value) = values runs ++ [value] := by
  cases runs with
  | nil => rfl
  | cons latest earlier =>
      rw [push]
      split
      · rename_i continues
        simp [values, expand, List.replicate_succ', continues.1]
      · simp [values, expand]

theorem sound_push (runs : List Run) (value : UInt16) (sound : ∀ run ∈ runs, run.Sound) :
    ∀ run ∈ push runs value, run.Sound := by
  have single : Sound ⟨1, value⟩ := ⟨Nat.le_refl 1, (by decide : 1 ≤ longest)⟩
  cases runs with
  | nil =>
      intro run member
      rw [List.mem_singleton.mp member]
      exact single
  | cons latest earlier =>
      rw [push]
      split
      · rename_i continues
        intro run member
        rcases List.mem_cons.mp member with rfl | member
        · exact ⟨Nat.le_add_left 1 _, continues.2⟩
        · exact sound run (List.mem_cons_of_mem _ member)
      · intro run member
        rcases List.mem_cons.mp member with rfl | member
        · exact single
        · exact sound run member

/-- Units are told in pairs, a count and a value each; one without partner tells nothing. -/
def ofUnits : List UInt16 → List Run
  | count :: value :: later => ⟨count.toNat, value⟩ :: ofUnits later
  | _ => []

theorem ofUnits_eq_nil {rest : List UInt16}
    (noPair : ∀ count value later, rest = count :: value :: later → False) :
    ofUnits rest = [] := by
  rw [ofUnits]
  exact noPair

theorem ofUnits_units (runs : List Run) (sound : ∀ run ∈ runs, run.Sound) :
    ofUnits (runs.flatMap units) = runs := by
  induction runs with
  | nil => rfl
  | cons run later ih =>
      have short := Nat.lt_succ_of_le (sound run List.mem_cons_self).short
      have count : run.count.toUInt16.toNat = run.count := UInt16.toNat_ofNat_of_lt short
      simp only [List.flatMap_cons, units, List.cons_append, List.nil_append, ofUnits, count]
      rw [ih fun one member => sound one (List.mem_cons_of_mem _ member)]

theorem length_ofUnits (units : List UInt16) : (ofUnits units).length = units.length / 2 := by
  fun_induction ofUnits units with
  | case1 count value later ih =>
      simp only [List.length_cons, ih]
      omega
  | case2 rest noPair =>
      match rest, noPair with
      | [], _ => simp
      | [_], _ => simp
      | count :: value :: later, noPair => exact absurd rfl (noPair count value later)

end Run

namespace Encoder

theorem push_foldl (encoder : Encoder) (values : List UInt16)
    (sound : ∀ run ∈ encoder.runs, run.Sound) :
    Run.values (values.foldl push encoder).runs = Run.values encoder.runs ++ values ∧
      ∀ run ∈ (values.foldl push encoder).runs, run.Sound := by
  induction values generalizing encoder with
  | nil => simpa using sound
  | cons value later ih =>
      have pushed := ih (encoder.push value) (Run.sound_push encoder.runs value sound)
      rw [push, Run.values_push] at pushed
      simpa [push] using pushed

end Encoder

theorem expandOnto_eq_ok_iff (declared pair : Nat) (decoded : Array UInt16)
    (units values : List UInt16) :
    expandOnto declared pair decoded units = .ok values ↔
      (∀ run ∈ Run.ofUnits units, run.Sound) ∧
        values = decoded.toList ++ (Run.ofUnits units).flatMap Run.expand ∧
        values.length = declared := by
  fun_induction expandOnto declared pair decoded units with
  | case1 pair decoded value later =>
      simp only [reduceCtorEq, false_iff]
      rintro ⟨sound, _⟩
      have some := (sound ⟨0, value⟩ List.mem_cons_self).some
      simp at some
  | case2 pair decoded count value later some excess =>
      simp only [reduceCtorEq, false_iff]
      rintro ⟨_, rfl, fills⟩
      simp only [Run.ofUnits, List.flatMap_cons, Run.expand, List.length_append,
        List.length_replicate, Array.length_toList] at fills
      omega
  | case3 pair decoded count value later some room ih =>
      have sound : Run.Sound ⟨count.toNat, value⟩ :=
        ⟨Nat.pos_of_ne_zero fun zero => some (UInt16.toNat_inj.mp zero),
          Nat.le_of_lt_succ count.toNat_lt⟩
      simp [ih, Run.ofUnits, Run.expand, sound]
  | case4 rest pair decoded full noPair =>
      simp only [Run.ofUnits_eq_nil noPair, Except.ok.injEq, List.flatMap_nil, List.append_nil,
        List.not_mem_nil, false_implies, implies_true, true_and]
      constructor
      · rintro rfl
        exact ⟨rfl, full⟩
      · rintro ⟨rfl, _⟩
        rfl
  | case5 rest pair decoded misfit noPair =>
      simp only [Run.ofUnits_eq_nil noPair, reduceCtorEq, List.flatMap_nil, List.append_nil,
        false_iff]
      rintro ⟨_, rfl, fills⟩
      exact misfit fills

theorem expand_eq_ok_iff (declared : Nat) (units values : List UInt16) :
    expand units declared = .ok values ↔
      units.length % 2 = 0 ∧ (∀ run ∈ Run.ofUnits units, run.Sound) ∧
        values = (Run.ofUnits units).flatMap Run.expand ∧ values.length = declared := by
  rw [expand]
  split
  · rename_i odd
    simp [odd]
  · rename_i even
    rw [expandOnto_eq_ok_iff]
    simp [Decidable.not_not.mp even]

theorem length_flatMap_units (runs : List Run) :
    (runs.flatMap Run.units).length = 2 * runs.length := by
  induction runs with
  | nil => rfl
  | cons run later ih =>
      simp only [List.flatMap_cons, Run.units, List.length_append, List.length_cons,
        List.length_nil, ih]
      omega

theorem expand_units (runs : List Run) (sound : ∀ run ∈ runs, run.Sound) :
    expand (runs.flatMap Run.units) (runs.flatMap Run.expand).length =
      .ok (runs.flatMap Run.expand) := by
  rw [expand_eq_ok_iff, Run.ofUnits_units runs sound, length_flatMap_units]
  exact ⟨Nat.mul_mod_right 2 _, sound, rfl, rfl⟩

theorem load_eq_none_iff (text : String) (declared : Nat) :
    load text declared = none ↔
      2 ^ 62 ≤ declared ∧ ∃ read, units text = .ok read ∧ read.length % 2 = 0 := by
  have bytes : 0x7FFFFFFFFFFFFFFF < 2 * declared ↔ 2 ^ 62 ≤ declared := by omega
  rw [load]
  cases units text with
  | error fault => simp
  | ok read => simp [bytes, and_comm]

theorem load_eq_some_iff (text : String) (declared : Nat)
    (outcome : Except Fault (List UInt16)) :
    load text declared = some outcome ↔ decode text declared = outcome ∧
      ¬ (2 ^ 62 ≤ declared ∧ ∃ read, units text = .ok read ∧ read.length % 2 = 0) := by
  rw [← load_eq_none_iff, load, decode]
  cases units text with
  | error fault => simp [bind, Except.bind]
  | ok read =>
      simp only [bind, Except.bind]
      split_ifs <;> simp

end Multistage.Literal
