import Multistage.Proofs.Written

/-!
The formula of a layout computes what the map holds. Going down the stages, the place reached in
a table holds what the index above it has for the input.
-/

namespace Multistage

namespace Formula

open Layout

variable (fetch? : String → Nat → Option Nat) (value : Nat)

theorem and_lowBits (number count : Nat) (near : count < 32) :
    number &&& lowBits count = number % 2 ^ count := by
  rw [lowBits, if_pos near, Nat.one_shiftLeft, Nat.and_two_pow_sub_one_eq_mod]

theorem shiftLeft?_of_lt (number distance : Nat) (near : distance < 32)
    (contained : number * 2 ^ distance < 2 ^ 32) :
    shiftLeft? number distance = some (number * 2 ^ distance) := by
  rw [shiftLeft?, if_pos near, Nat.shiftLeft_eq]
  exact congrArg some (Nat.mod_eq_of_lt contained)

theorem eval?_shifted (word : Formula) (number distance : Nat) (near : distance < 32)
    (evaluated : word.eval? fetch? value = some number) :
    (shifted word distance).eval? fetch? value = some (number / 2 ^ distance) := by
  rw [shifted]
  split
  · rename_i still
    rw [evaluated, still, Nat.pow_zero, Nat.div_one]
  · simp [eval?, evaluated, shiftRight?, near, Nat.shiftRight_eq_div_pow]

theorem eval?_position (base slice : Formula) (number block bits : Nat) (near : bits < 32)
    (above : base.eval? fetch? value = some (block * 2 ^ bits))
    (below : slice.eval? fetch? value = some number) :
    (position (some base) slice bits).eval? fetch? value =
      some (block * 2 ^ bits + number % 2 ^ bits) := by
  rw [position]
  split
  · rename_i none
    rw [above, none, Nat.pow_zero, Nat.mod_one, Nat.add_zero]
  · have room := Nat.mod_lt number (Nat.two_pow_pos bits)
    simp only [eval?, above, below, bind, Option.bind, pure, and_lowBits _ _ near]
    rw [Nat.or_comm, ← Nat.shiftLeft_eq, or_shiftLeft _ _ _ room, Nat.shiftLeft_eq]

theorem eval?_fetch (length nextBits shift number : Nat) (table : String) (place : Formula)
    (near : nextBits < 32) (short : length ≤ 2 ^ 32) (bound : number < length >>> nextBits)
    (found : (index table place).eval? fetch? value =
      some (number <<< (Stage.pointing length nextBits shift).storedShift)) :
    (fetch (Stage.pointing length nextBits shift) table place).eval? fetch? value =
      some (number * 2 ^ nextBits) := by
  have position := Stage.position_lt length nextBits number bound
  have masked := Stage.stored_and_extendMask length nextBits shift number bound
  generalize staged : Stage.pointing length nextBits shift = stage at found masked ⊢
  have moves : stage.nextBits = nextBits := by rw [← staged]; rfl
  have entry : (if stage.extendMask = 0 then index table place
      else and (index table place) (mask stage.extendMask)).eval? fetch? value =
        some (number <<< stage.storedShift) := by
    split
    · exact found
    · rename_i some
      rw [eval?, found]
      simp [eval?, masked some]
  rw [fetch, moves]
  split
  · rename_i still
    have stored : stage.storedShift = nextBits := by
      rw [Stage.storedShift, moves]
      rcases still with preshifted | none
      · rw [if_pos preshifted]
      · rw [none, ite_self]
    rw [entry, stored, Nat.shiftLeft_eq]
  · rename_i moved
    have stored : stage.storedShift = 0 := by
      rw [Stage.storedShift, if_neg (not_or.mp moved).1]
    rw [eval?, entry, stored]
    exact shiftLeft?_of_lt number nextBits near (by omega)

theorem eval?_select (width : ClassWidth) (word unit : Formula) (place stored : Nat)
    (packed : width.isPacked = true) (input : word.eval? fetch? value = some place)
    (fetched : unit.eval? fetch? value = some stored) :
    (select width word unit).eval? fetch? value =
      some ((stored >>> (place % width.perUnit * width.bits)) % 2 ^ width.bits) := by
  have near : width.unitExponent < 32 := by cases width <;> decide
  have scale : 2 ^ Nat.log2 width.bits = width.bits := by cases width <;> decide
  have scaleNear : Nat.log2 width.bits < 32 := by cases width <;> decide
  have inside : place % width.perUnit * width.bits < 32 := by
    rw [← ClassWidth.perUnit_mul_bits width]
    have units := Listing.perUnit_eq width packed
    have positive := Nat.two_pow_pos width.unitExponent
    have single : 0 < width.bits := by cases width <;> decide
    exact Nat.mul_lt_mul_of_pos_right (Nat.mod_lt place (by omega)) single
  have chosen : (and word (mask (lowBits width.unitExponent))).eval? fetch? value =
      some (place % width.perUnit) := by
    rw [eval?, input, Listing.perUnit_eq width packed, ← and_lowBits _ _ near]
    rfl
  have distance : (if Nat.log2 width.bits = 0 then and word (mask (lowBits width.unitExponent))
      else shl (and word (mask (lowBits width.unitExponent)))
        (num (Nat.log2 width.bits))).eval? fetch? value =
          some (place % width.perUnit * width.bits) := by
    split
    · rename_i none
      rw [chosen, ← scale, none, Nat.pow_zero, Nat.mul_one]
    · rw [eval?, chosen]
      have moved := shiftLeft?_of_lt (place % width.perUnit) (Nat.log2 width.bits) scaleNear
        (by rw [scale]; omega)
      rwa [scale] at moved
  rw [select, if_pos packed]
  simp only [eval?, fetched, distance, bind, Option.bind, pure, shiftRight?, inside, if_true,
    ClassWidth.max, Nat.one_shiftLeft, Nat.and_two_pow_sub_one_eq_mod]

def Stocked (table : String) (width : ClassWidth) (depth : Nat) (tables : List Table)
    (stages : List Stage) : Prop :=
  ∀ name entries, (name, entries) ∈ Decoded.contents table width depth tables stages →
    ∀ place, fetch? name place = entries[place]?

/-- A formula leads to the place in a table that stands for the input's bits above `finer`.
The final table is reached in units. -/
structure Reaches (map : Table) (width : ClassWidth) (finer : List Nat) (entries : Table)
    (position : Formula) (place : Nat) : Prop where
  holds : entries[place]? = (below map finer)[value / 2 ^ finer.sum]?
  within : place % 2 ^ unitBits width finer = value / 2 ^ finer.sum % 2 ^ unitBits width finer
  evaluated : position.eval? fetch? value = some (place / 2 ^ unitBits width finer)

theorem Reaches.start (map : Table) (width : ClassWidth) (finer : List Nat) (word : Formula)
    (bits : Nat) (input : word.eval? fetch? value = some value)
    (near : finer.sum + unitBits width finer < 32) :
    Reaches fetch? value map width finer (below map finer)
      (position none (shifted word (finer.sum + unitBits width finer)) bits)
      (value / 2 ^ finer.sum) := by
  refine ⟨rfl, rfl, ?_⟩
  rw [position, eval?_shifted fetch? value word value _ near input, Nat.pow_add,
    Nat.div_div_eq_div_mul]

theorem unitBits_cons (width : ClassWidth) (next : Nat) (finer : List Nat) :
    unitBits width (next :: finer) = 0 :=
  rfl

theorem place_div_units (block number bits units : Nat) (room : units ≤ bits) :
    (block * 2 ^ bits + number % 2 ^ bits) / 2 ^ units =
        block * 2 ^ (bits - units) + number / 2 ^ units % 2 ^ (bits - units) ∧
      (block * 2 ^ bits + number % 2 ^ bits) % 2 ^ units = number % 2 ^ units := by
  have split : 2 ^ bits = 2 ^ units * 2 ^ (bits - units) := by
    rw [← Nat.pow_add, Nat.add_sub_cancel' room]
  have whole : block * 2 ^ bits = 2 ^ units * (block * 2 ^ (bits - units)) := by
    rw [split, Nat.mul_left_comm]
  rw [whole]
  constructor
  · rw [Nat.mul_add_div (Nat.two_pow_pos _), split, Nat.mod_mul_right_div_self]
  · rw [Nat.mul_add_mod, Nat.mod_mod_of_dvd _ (Nat.pow_dvd_pow 2 room)]

theorem sum_lt (map : Table) (finer : List Nat) (aligned : 2 ^ finer.sum ∣ map.length)
    (short : map.length < 2 ^ 32) (inside : value < map.length) : finer.sum < 32 := by
  apply (Nat.pow_lt_pow_iff_right (a := 2) (by omega)).mp
  exact Nat.lt_of_le_of_lt (Nat.le_of_dvd (by omega) aligned) short

theorem exists_mem_below (map : Table) (finer : List Nat) (aligned : 2 ^ finer.sum ∣ map.length)
    (inside : value < map.length) :
    ∃ entry, (below map finer)[value / 2 ^ finer.sum]? = some entry := by
  have bound : value / 2 ^ finer.sum < (below map finer).length := by
    rw [length_below]
    exact Nat.div_lt_div_of_lt_of_dvd aligned inside
  exact ⟨_, List.getElem?_eq_getElem bound⟩

theorem Reaches.step (map : Table) (width : ClassWidth) (next depth : Nat) (finer : List Nat)
    (entries : Table) (table : String) (word place : Formula) (reached : Nat)
    (aligned : 2 ^ (next :: finer).sum ∣ map.length) (short : map.length < 2 ^ 32)
    (inside : value < map.length) (units : WholeUnits width (next :: finer))
    (input : word.eval? fetch? value = some value)
    (members : ∀ entry ∈ entries, entry ∈ below map (next :: finer))
    (stocked : Stocked fetch? table width depth (entries :: storedTables map (next :: finer))
      (stagesBelow map width (next :: finer)))
    (reaches : Reaches fetch? value map width (next :: finer) entries place reached) :
    ∃ later, Reaches fetch? value map width finer ((below map finer).condensed next).stored
      (position (some (fetch (stageAbove map width next finer) (indexName depth) place))
        (shifted word (finer.sum + unitBits width finer)) (next - unitBits width finer))
      later := by
  have room := units.unitBits_le
  have near := sum_lt value map _ aligned short inside
  obtain ⟨number, numbered⟩ := exists_mem_below value map _ aligned inside
  rw [List.sum_cons] at near
  rw [List.sum_cons, two_pow_add_dvd_iff] at aligned
  have found := reaches.holds.trans numbered
  have member := members number (List.mem_of_getElem? found)
  have registered :=
    Listing.register_stageAbove map width next number finer short units member
  have atMost := length_stored_le map width next finer
  obtain ⟨quotient, rest⟩ := place_div_units number (value / 2 ^ finer.sum) next _ room
  refine ⟨number * 2 ^ next + value / 2 ^ finer.sum % 2 ^ next, ?_, rest, ?_⟩
  · apply Table.getElem?_condensed_stored
    · rw [length_below]
      exact aligned.2
    · rw [length_below]
      exact Nat.div_lt_div_of_lt_of_dvd aligned.1 inside
    · have numbers := condensed_below map next finer (numbered_of_short _ _ (by omega))
      rw [numbers, Nat.div_div_eq_div_mul, ← Nat.pow_add, Nat.add_comm finer.sum]
      exact numbered
  · rw [quotient, Nat.div_div_eq_div_mul, ← Nat.pow_add]
    apply eval?_position
    · omega
    · apply eval?_fetch _ _ _ _ _ _ _ _ (by omega) (by omega)
        (lt_blocks_of_mem_below map width next number finer units member)
      -- Only the final table is reached in units, so this is the place of the entry itself.
      have entry := stocked _ _ List.mem_cons_self reached
      rw [eval?, reaches.evaluated, unitBits_cons, Nat.pow_zero, Nat.div_one]
      refine entry.trans ?_
      rw [List.getElem?_toArray, List.getElem?_map, found, Option.map_some, registered]
      rfl
    · exact eval?_shifted fetch? value word value _ (by omega) input

theorem Reaches.finish (map : Table) (width : ClassWidth) (depth : Nat) (entries : Table)
    (table : String) (word place : Formula) (reached : Nat)
    (inside : value < map.length) (input : word.eval? fetch? value = some value)
    (classes : ∀ entry ∈ entries, entry ≤ width.max)
    (stocked : Stocked fetch? table width depth [entries] [Stage.final])
    (reaches : Reaches fetch? value map width [] entries place reached) :
    (select width word (fetch Stage.final table place)).eval? fetch? value = some map[value] := by
  have found : entries[reached]? = some map[value] := by
    rw [reaches.holds, List.sum_nil, Nat.pow_zero, Nat.div_one]
    exact List.getElem?_eq_getElem inside
  have fetched : (fetch Stage.final table place).eval? fetch? value =
      (Listing.storedClasses width entries)[reached / 2 ^ width.unitExponent]? := by
    have direct : fetch Stage.final table place = index table place := rfl
    have units : unitBits width [] = width.unitExponent := rfl
    have there := stocked table _ List.mem_cons_self (reached / 2 ^ width.unitExponent)
    rw [direct, eval?, reaches.evaluated, units]
    exact there.trans List.getElem?_toArray
  cases packed : width.isPacked with
  | true =>
      obtain ⟨unit, unitFound, held⟩ :=
        Listing.exists_unitWord width entries packed classes reached _ found
      have within : value % width.perUnit = reached % width.perUnit := by
        have places := reaches.within
        rw [List.sum_nil, Nat.pow_zero, Nat.div_one] at places
        rw [Listing.perUnit_eq width packed]
        exact places.symm
      rw [Listing.perUnit_eq width packed] at unitFound
      rw [Listing.storedClasses, if_pos packed, unitFound] at fetched
      rw [eval?_select fetch? value width word _ value unit packed input fetched, within, held]
  | false =>
      have single : width.unitExponent = 0 := by
        simpa [ClassWidth.isPacked] using packed
      rw [Listing.storedClasses, packed, if_neg Bool.false_ne_true, single, Nat.pow_zero,
        Nat.div_one, found] at fetched
      rw [select, packed, if_neg Bool.false_ne_true, fetched]

theorem eval?_descend (map : Table) (width : ClassWidth) (bits depth : Nat) (finer : List Nat)
    (entries : Table) (table : String) (word : Formula) (base : Option Formula) (reached : Nat)
    (stage : Stage) (stages : List Stage)
    (aligned : 2 ^ finer.sum ∣ map.length) (short : map.length < 2 ^ 32)
    (inside : value < map.length) (units : WholeUnits width finer)
    (input : word.eval? fetch? value = some value)
    (members : ∀ entry ∈ entries, entry ∈ below map finer)
    (classes : ∀ entry ∈ (entries :: storedTables map finer).getLast (List.cons_ne_nil _ _),
      entry ≤ width.max)
    (staged : stagesBelow map width finer = stage :: stages)
    (stocked : Stocked fetch? table width depth (entries :: storedTables map finer)
      (stage :: stages))
    (reaches : Reaches fetch? value map width finer entries
      (position base (shifted word (finer.sum + unitBits width finer))
        (bits - unitBits width finer)) reached) :
    (descend table word width depth base (bits, stage) (finer.zip stages)).eval? fetch? value =
      some map[value] := by
  induction finer generalizing bits depth entries base reached stage stages with
  | nil =>
      obtain ⟨rfl, rfl⟩ := List.cons_eq_cons.mp staged
      have slice : Stage.final.shift + width.unitExponent =
        [].sum + unitBits width [] := rfl
      rw [List.zip_nil_left, descend, slice]
      exact Reaches.finish fetch? value map width depth entries table word _ reached inside input
        classes stocked reaches
  | cons next finer ih =>
      obtain ⟨rfl, rfl⟩ := List.cons_eq_cons.mp staged
      obtain ⟨later, reachesLater⟩ := Reaches.step fetch? value map width next depth finer entries
        table word _ reached aligned short inside units input members stocked reaches
      cases rest : stagesBelow map width finer with
      | nil =>
          have length := length_stagesBelow map width finer
          simp [rest] at length
      | cons following stages =>
          rw [rest] at stocked
          refine ih next (depth + 1) _ _ later following stages ?_ units.tail
            (Table.mem_of_mem_stored _ _) ?_ rest ?_ reachesLater
          · rw [List.sum_cons, two_pow_add_dvd_iff] at aligned
            exact aligned.1
          · simpa only [storedTables, List.getLast_cons_cons] using classes
          · intro name entries member
            exact stocked name entries (List.mem_cons_of_mem _ member)

theorem lookup_eq_ok_iff (table name : String) (width : ClassWidth) (coarsest : Nat)
    (finer : List Nat) (stage : Stage) (stages : List Stage) (same : stages.length = finer.length)
    (formula : Formula) :
    lookup table name width (coarsest :: finer) (stage :: stages) = .ok formula ↔
      finer.length < mostStages ∧
        formula = descend table (input name) width 0 none (coarsest, stage) (finer.zip stages) := by
  have count : ¬ (coarsest :: finer).length ≠ (stage :: stages).length := by
    simp [same]
  rw [lookup, if_neg count, List.zip_cons_cons, List.length_cons]
  by_cases many : mostStages < finer.length + 1
  · simp [many, Nat.not_lt.mpr (Nat.le_of_lt_succ many)]
  · simp [many, Nat.lt_of_not_le (mt Nat.lt_succ_of_le many), eq_comm]

end Formula

end Multistage
