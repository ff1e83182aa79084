import Mathlib.Data.List.Infix
import Multistage.Literal.Blank

/-!
The language of literals, apart from any reader. A text is put together of pieces, a quoted piece
of items, and every item stands for one unit. Nothing marks the end of an octal escape: it takes
as many digits as make a byte, so whether an item is proper depends on what comes after it.
-/

namespace Multistage.Literal

def digitValue (digit : Char) : Nat :=
  "0123456789abcdef".toList.idxOf digit.toLower

def numeral (base : Nat) (digits : List Char) : Nat :=
  digits.foldl (fun value digit => base * value + digitValue digit) 0

structure IsOctal (digits : List Char) : Prop where
  nonempty : digits ≠ []
  few : digits.length ≤ 3
  octal : ∀ digit ∈ digits, digitValue digit < 8
  byte : numeral 8 digits ≤ 0xFF

structure IsHex (digits : List Char) : Prop where
  four : digits.length = 4
  hex : ∀ digit ∈ digits, digitValue digit < 16

inductive Item
  | raw (character : Char)
  | hex (digits : List Char)
  | octal (digits : List Char)
  deriving DecidableEq

namespace Item

def text : Item → List Char
  | raw character => [character]
  | hex digits => '\\' :: 'u' :: digits
  | octal digits => '\\' :: digits

def unit : Item → UInt16
  | raw character => character.toNat.toUInt16
  | hex digits => (numeral 16 digits).toUInt16
  | octal digits => (numeral 8 digits).toUInt16

def Proper (later : List Char) : Item → Prop
  | raw character => character.toNat ≤ 0xFFFF ∧ character ≠ '"' ∧ character ≠ '\\'
  | hex digits => IsHex digits
  | octal digits => IsOctal digits ∧
      ∀ longer, longer <+: digits ++ later → IsOctal longer → longer.length ≤ digits.length

end Item

def ProperBody : List Item → Prop
  | [] => True
  | item :: items => item.Proper (items.flatMap Item.text ++ ['"']) ∧ ProperBody items

inductive Piece
  | plus
  | blank (character : Char)
  | quoted (items : List Item)
  deriving DecidableEq

namespace Piece

def text : Piece → List Char
  | plus => ['+']
  | blank character => [character]
  | quoted items => '"' :: (items.flatMap Item.text ++ ['"'])

def units : Piece → List UInt16
  | plus => []
  | blank _ => []
  | quoted items => items.map Item.unit

def Proper : Piece → Prop
  | plus => True
  | blank character => isBlank character = true
  | quoted items => ProperBody items

end Piece

structure Spelling (pieces : List Piece) (text : List Char) : Prop where
  proper : ∀ piece ∈ pieces, piece.Proper
  text : pieces.flatMap Piece.text = text

def Denotes (text : List Char) (units : List UInt16) : Prop :=
  ∃ pieces, Spelling pieces text ∧ pieces.flatMap Piece.units = units

theorem numeral_append_singleton (base : Nat) (digits : List Char) (digit : Char) :
    numeral base (digits ++ [digit]) = base * numeral base digits + digitValue digit := by
  simp [numeral]

theorem digitValue_digitChar : ∀ digit < 16, digitValue (Nat.digitChar digit) = digit := by
  decide

theorem exists_digitChar_of_mem_toDigits {base : Nat} (several : 1 < base) (value : Nat) :
    ∀ digit ∈ Nat.toDigits base value, ∃ worth < base, digit = Nat.digitChar worth := by
  induction value using Nat.strongRecOn with
  | ind value ih =>
      have positive : 0 < base := by omega
      by_cases single : value < base
      · rw [Nat.toDigits_of_lt_base single, List.forall_mem_singleton]
        exact ⟨value, single, rfl⟩
      · have smaller : value / base < value := Nat.div_lt_self (by omega) several
        rw [Nat.toDigits_of_base_le several (by omega), List.forall_mem_append,
          List.forall_mem_singleton]
        exact ⟨ih (value / base) smaller, _, Nat.mod_lt value positive, rfl⟩

theorem numeral_toDigits {base : Nat} (several : 1 < base) (small : base ≤ 16) (value : Nat) :
    numeral base (Nat.toDigits base value) = value := by
  induction value using Nat.strongRecOn with
  | ind value ih =>
      by_cases single : value < base
      · rw [Nat.toDigits_of_lt_base single]
        simp [numeral, digitValue_digitChar value (by omega)]
      · have smaller : value / base < value := Nat.div_lt_self (by omega) several
        have lowest : value % base < base := Nat.mod_lt value (by omega)
        rw [Nat.toDigits_of_base_le several (by omega), numeral_append_singleton,
          ih (value / base) smaller, digitValue_digitChar (value % base) (by omega),
          Nat.div_add_mod]

theorem numeral_le_append (base : Nat) (digits more : List Char) (positive : 0 < base) :
    numeral base digits ≤ numeral base (digits ++ more) := by
  induction more using List.reverseRecOn with
  | nil => simp
  | append_singleton more digit ih =>
      rw [← List.append_assoc, numeral_append_singleton]
      have factor := Nat.le_mul_of_pos_left (numeral base (digits ++ more)) positive
      omega

theorem IsOctal.of_append {digits more : List Char} (octal : IsOctal (digits ++ more))
    (nonempty : digits ≠ []) : IsOctal digits := by
  have few := octal.few
  have byte := octal.byte
  have value := numeral_le_append 8 digits more (by omega)
  rw [List.length_append] at few
  refine ⟨nonempty, by omega, ?_, by omega⟩
  intro digit member
  exact octal.octal digit (List.mem_append_left more member)

instance (digits : List Char) : Decidable (IsOctal digits) :=
  decidable_of_iff (digits ≠ [] ∧ digits.length ≤ 3 ∧ digits.all (digitValue · < 8) = true ∧
      numeral 8 digits ≤ 0xFF) <| by
    constructor
    · rintro ⟨nonempty, few, octal, byte⟩
      exact ⟨nonempty, few, by simpa using octal, byte⟩
    · intro octal
      exact ⟨octal.nonempty, octal.few, by simpa using octal.octal, octal.byte⟩

instance (digits : List Char) : Decidable (IsHex digits) :=
  decidable_of_iff (digits.length = 4 ∧ digits.all (digitValue · < 16) = true) <| by
    constructor
    · rintro ⟨four, hex⟩
      exact ⟨four, by simpa using hex⟩
    · intro hex
      exact ⟨hex.four, by simpa using hex.hex⟩

namespace Item

theorem proper_octal_iff (digits later : List Char) :
    (octal digits).Proper later ↔
      IsOctal digits ∧ ∀ next, later.head? = some next → ¬ IsOctal (digits ++ [next]) := by
  constructor
  · rintro ⟨isOctal, longest⟩
    refine ⟨isOctal, ?_⟩
    intro next head one
    obtain ⟨rest, rfl⟩ : ∃ rest, later = next :: rest := List.head?_eq_some_iff.mp head
    have bound := longest (digits ++ [next]) (by simp) one
    rw [List.length_append, List.length_singleton] at bound
    omega
  · rintro ⟨isOctal, last⟩
    refine ⟨isOctal, ?_⟩
    intro longer before longerOctal
    by_contra more
    obtain ⟨others, rfl⟩ := List.prefix_of_prefix_length_le (List.prefix_append digits later) before
      (by omega)
    rw [List.prefix_append_right_inj] at before
    cases others with
    | nil => simp at more
    | cons next others =>
        -- A byte stays one when digits are dropped, down to the very next character.
        obtain ⟨rest, rfl⟩ := before
        rw [List.append_cons] at longerOctal
        exact last next rfl (longerOctal.of_append (by simp))

instance (later : List Char) : (item : Item) → Decidable (item.Proper later)
  | raw character =>
      inferInstanceAs (Decidable (character.toNat ≤ 0xFFFF ∧ character ≠ '"' ∧ character ≠ '\\'))
  | hex digits => inferInstanceAs (Decidable (IsHex digits))
  | octal digits =>
      decidable_of_iff
        (IsOctal digits ∧ later.head?.all (fun next => ¬ IsOctal (digits ++ [next])) = true) <| by
          rw [proper_octal_iff]
          cases later.head? <;> simp

theorem Proper.congr {item : Item} {later other : List Char} (proper : item.Proper later)
    (same : later.head? = other.head?) : item.Proper other := by
  cases item with
  | raw character => exact proper
  | hex digits => exact proper
  | octal digits =>
      rw [proper_octal_iff] at proper ⊢
      rwa [← same]

theorem Proper.length_le {digits others rest later : List Char}
    (proper : (octal digits).Proper rest) (octal : IsOctal others)
    (same : digits ++ rest = others ++ later) : others.length ≤ digits.length :=
  proper.2 others (same ▸ List.prefix_append others later) octal

theorem eq_raw_of_cons_eq {character : Char} {item : Item} {rest later : List Char}
    (proper : (raw character).Proper rest) (same : character :: rest = item.text ++ later) :
    item = raw character := by
  cases item with
  | raw other =>
      obtain ⟨rfl, _⟩ := List.cons_eq_cons.mp same
      rfl
  | hex digits => exact absurd (List.cons_eq_cons.mp same).1 proper.2.2
  | octal digits => exact absurd (List.cons_eq_cons.mp same).1 proper.2.2

theorem octal_ne_u {digits rest later : List Char} (octal : IsOctal digits) :
    'u' :: rest ≠ digits ++ later := by
  intro same
  cases digits with
  | nil => exact octal.nonempty rfl
  | cons digit digits =>
      obtain ⟨rfl, _⟩ := List.cons_eq_cons.mp same
      have small := octal.octal 'u' List.mem_cons_self
      exact absurd small (by decide)

theorem eq_of_append_eq {item other : Item} {rest later : List Char} (proper : item.Proper rest)
    (otherProper : other.Proper later) (same : item.text ++ rest = other.text ++ later) :
    item = other ∧ rest = later := by
  have items : item = other := by
    cases item with
    | raw character => exact (eq_raw_of_cons_eq proper same).symm
    | hex digits =>
        cases other with
        | raw character => exact eq_raw_of_cons_eq otherProper same.symm
        | hex others =>
            have tails := (List.cons_eq_cons.mp (List.cons_eq_cons.mp same).2).2
            rw [List.append_inj_left tails (proper.four.trans otherProper.four.symm)]
        | octal others =>
            exact absurd (List.cons_eq_cons.mp same).2 (octal_ne_u otherProper.1)
    | octal digits =>
        cases other with
        | raw character => exact eq_raw_of_cons_eq otherProper same.symm
        | hex others =>
            exact absurd (List.cons_eq_cons.mp same).2.symm (octal_ne_u proper.1)
        | octal others =>
            have tails := (List.cons_eq_cons.mp same).2
            have below := proper.length_le otherProper.1 tails
            have above := otherProper.length_le proper.1 tails.symm
            rw [List.append_inj_left tails (by omega)]
  subst items
  exact ⟨rfl, List.append_cancel_left same⟩

theorem text_ne_quote {item : Item} {rest later : List Char} (proper : item.Proper rest) :
    item.text ++ rest ≠ '"' :: later := by
  intro same
  cases item with
  | raw character => exact proper.2.1 (List.cons_eq_cons.mp same).1
  | hex digits => simp [text] at same
  | octal digits => simp [text] at same

end Item

instance decidableProperBody : (items : List Item) → Decidable (ProperBody items)
  | [] => inferInstanceAs (Decidable True)
  | item :: items =>
      have : Decidable (ProperBody items) := decidableProperBody items
      inferInstanceAs (Decidable (item.Proper (items.flatMap Item.text ++ ['"']) ∧
        ProperBody items))

theorem head?_append_quote (text rest : List Char) :
    (text ++ ['"']).head? = (text ++ '"' :: rest).head? := by
  cases text with
  | nil => rfl
  | cons character later => rfl

theorem ProperBody.head {item : Item} {items : List Item} (proper : ProperBody (item :: items))
    (rest : List Char) : item.Proper (items.flatMap Item.text ++ '"' :: rest) :=
  proper.1.congr (head?_append_quote _ rest)

theorem ProperBody.eq_of_append_eq {items others : List Item} {rest later : List Char}
    (proper : ProperBody items) (otherProper : ProperBody others)
    (same : items.flatMap Item.text ++ '"' :: rest = others.flatMap Item.text ++ '"' :: later) :
    items = others ∧ rest = later := by
  induction items generalizing others with
  | nil =>
      cases others with
      | nil => exact ⟨rfl, (List.cons_eq_cons.mp same).2⟩
      | cons other others =>
          rw [List.flatMap_cons, List.append_assoc] at same
          exact absurd same.symm (Item.text_ne_quote (otherProper.head later))
  | cons item items ih =>
      rw [List.flatMap_cons, List.append_assoc] at same
      cases others with
      | nil => exact absurd same (Item.text_ne_quote (proper.head rest))
      | cons other others =>
          rw [List.flatMap_cons, List.append_assoc] at same
          obtain ⟨rfl, tails⟩ :=
            Item.eq_of_append_eq (proper.head rest) (otherProper.head later) same
          obtain ⟨rfl, rests⟩ := ih proper.2 otherProper.2 tails
          exact ⟨rfl, rests⟩

instance : (piece : Piece) → Decidable piece.Proper
  | .plus => inferInstanceAs (Decidable True)
  | .blank character => inferInstanceAs (Decidable (isBlank character = true))
  | .quoted items => inferInstanceAs (Decidable (ProperBody items))

instance (pieces : List Piece) (text : List Char) : Decidable (Spelling pieces text) :=
  decidable_of_iff ((∀ piece ∈ pieces, piece.Proper) ∧ pieces.flatMap Piece.text = text)
    ⟨fun ⟨proper, spelled⟩ => ⟨proper, spelled⟩, fun spells => ⟨spells.proper, spells.text⟩⟩

theorem Spelling.nil_iff (pieces : List Piece) : Spelling pieces [] ↔ pieces = [] := by
  constructor
  · intro spells
    cases pieces with
    | nil => rfl
    | cons piece pieces =>
        have text := spells.text
        cases piece <;> simp [Piece.text] at text
  · rintro rfl
    exact ⟨by simp, rfl⟩

theorem Spelling.cons_iff (piece : Piece) (pieces : List Piece) (text : List Char) :
    Spelling (piece :: pieces) text ↔
      piece.Proper ∧ ∃ rest, text = piece.text ++ rest ∧ Spelling pieces rest := by
  constructor
  · intro spells
    refine ⟨spells.proper piece List.mem_cons_self, pieces.flatMap Piece.text,
      by rw [← spells.text, List.flatMap_cons], ?_, rfl⟩
    intro later member
    exact spells.proper later (List.mem_cons_of_mem piece member)
  · rintro ⟨proper, rest, rfl, later⟩
    refine ⟨?_, by rw [List.flatMap_cons, later.text]⟩
    intro one member
    rcases List.mem_cons.mp member with rfl | member
    · exact proper
    · exact later.proper one member

theorem Spelling.of_cons {pieces : List Piece} {character : Char} {text : List Char}
    (spells : Spelling pieces (character :: text)) :
    (∃ later, character = '+' ∧ pieces = .plus :: later ∧ Spelling later text) ∨
      (∃ later, isBlank character = true ∧ pieces = .blank character :: later ∧
        Spelling later text) ∨
      ∃ items later rest, character = '"' ∧ pieces = .quoted items :: later ∧ ProperBody items ∧
        text = items.flatMap Item.text ++ '"' :: rest ∧ Spelling later rest := by
  cases pieces with
  | nil => exact absurd spells.text (by simp)
  | cons piece later =>
      obtain ⟨proper, rest, split, spelled⟩ := (cons_iff _ _ _).mp spells
      cases piece with
      | plus =>
          obtain ⟨rfl, rfl⟩ := List.cons_eq_cons.mp split
          exact Or.inl ⟨later, rfl, rfl, spelled⟩
      | blank space =>
          obtain ⟨rfl, rfl⟩ := List.cons_eq_cons.mp split
          exact Or.inr (Or.inl ⟨later, proper, rfl, spelled⟩)
      | quoted items =>
          obtain ⟨rfl, body⟩ := List.cons_eq_cons.mp split
          refine Or.inr (Or.inr ⟨items, later, rest, rfl, rfl, proper, ?_, spelled⟩)
          simpa using body

theorem Spelling.unique {pieces others : List Piece} {text : List Char}
    (spells : Spelling pieces text) (otherSpells : Spelling others text) : pieces = others := by
  induction pieces generalizing others text with
  | nil =>
      obtain rfl : text = [] := spells.text.symm
      exact ((nil_iff others).mp otherSpells).symm
  | cons piece pieces ih =>
      obtain ⟨proper, rest, rfl, later⟩ := (cons_iff _ _ _).mp spells
      cases piece with
      | plus =>
          rcases otherSpells.of_cons with ⟨_, _, rfl, spelled⟩ | ⟨_, blank, _⟩ | ⟨_, _, _, quote, _⟩
          · rw [ih later spelled]
          · exact absurd blank (by decide)
          · exact absurd quote (by decide)
      | blank space =>
          rcases otherSpells.of_cons with ⟨_, rfl, _⟩ | ⟨_, _, rfl, spelled⟩ | ⟨_, _, _, rfl, _⟩
          · exact absurd (show isBlank '+' = true from proper) (by decide)
          · rw [ih later spelled]
          · exact absurd (show isBlank '"' = true from proper) (by decide)
      | quoted items =>
          rcases otherSpells.of_cons with ⟨_, plus, _⟩ | ⟨_, blank, _⟩ |
            ⟨others, _, after, _, rfl, otherProper, body, spelled⟩
          · exact absurd plus (by decide)
          · exact absurd blank (by decide)
          · have same : items.flatMap Item.text ++ '"' :: rest =
                others.flatMap Item.text ++ '"' :: after := by
              simpa using body
            obtain ⟨rfl, rfl⟩ := proper.eq_of_append_eq otherProper same
            rw [ih later spelled]

theorem denotes_nil_iff (units : List UInt16) : Denotes [] units ↔ units = [] := by
  simp [Denotes, Spelling.nil_iff, eq_comm]

theorem Denotes.starts {character : Char} {text : List Char} {units : List UInt16}
    (denotes : Denotes (character :: text) units) :
    character = '"' ∨ character = '+' ∨ isBlank character = true := by
  obtain ⟨pieces, spells, _⟩ := denotes
  rcases spells.of_cons with ⟨_, plus, _⟩ | ⟨_, blank, _⟩ | ⟨_, _, _, quote, _⟩
  · exact Or.inr (Or.inl plus)
  · exact Or.inr (Or.inr blank)
  · exact Or.inl quote

theorem denotes_gap_iff (character : Char) (text : List Char) (units : List UInt16)
    (gap : character = '+' ∨ isBlank character = true) :
    Denotes (character :: text) units ↔ Denotes text units := by
  constructor
  · rintro ⟨pieces, spells, rfl⟩
    rcases spells.of_cons with ⟨later, _, rfl, spelled⟩ | ⟨later, _, rfl, spelled⟩ |
      ⟨_, _, _, rfl, _⟩
    · exact ⟨later, spelled, rfl⟩
    · exact ⟨later, spelled, rfl⟩
    · exact absurd gap (by decide)
  · rintro ⟨pieces, spells, rfl⟩
    rcases gap with rfl | blank
    · exact ⟨.plus :: pieces, (Spelling.cons_iff _ _ _).mpr ⟨trivial, text, rfl, spells⟩, rfl⟩
    · exact ⟨.blank character :: pieces, (Spelling.cons_iff _ _ _).mpr ⟨blank, text, rfl, spells⟩,
        rfl⟩

theorem denotes_quoted_iff (text : List Char) (units : List UInt16) :
    Denotes ('"' :: text) units ↔ ∃ items rest later, ProperBody items ∧
      text = items.flatMap Item.text ++ '"' :: rest ∧ Denotes rest later ∧
      units = items.map Item.unit ++ later := by
  constructor
  · rintro ⟨pieces, spells, rfl⟩
    rcases spells.of_cons with ⟨_, plus, _⟩ | ⟨_, blank, _⟩ |
      ⟨items, later, rest, _, rfl, proper, body, spelled⟩
    · exact absurd plus (by decide)
    · exact absurd blank (by decide)
    · exact ⟨items, rest, _, proper, body, ⟨later, spelled, rfl⟩, rfl⟩
  · rintro ⟨items, rest, _, proper, rfl, ⟨pieces, spells, rfl⟩, rfl⟩
    refine ⟨.quoted items :: pieces, (Spelling.cons_iff _ _ _).mpr ⟨proper, rest, ?_, spells⟩, rfl⟩
    simp [Piece.text]

theorem Denotes.opened {text : List Char} {units : List UInt16}
    (denotes : Denotes ('"' :: text) units) :
    (∃ rest, text = '"' :: rest ∧ Denotes rest units) ∨
      ∃ (item : Item) (rest : List Char) (later : List UInt16), text = item.text ++ rest ∧
        item.Proper rest ∧ units = item.unit :: later ∧ Denotes ('"' :: rest) later := by
  obtain ⟨items, rest, later, proper, rfl, spelled, rfl⟩ := (denotes_quoted_iff _ _).mp denotes
  cases items with
  | nil => exact Or.inl ⟨rest, rfl, spelled⟩
  | cons item items =>
      refine Or.inr ⟨item, items.flatMap Item.text ++ '"' :: rest, items.map Item.unit ++ later,
        by simp, proper.head rest, rfl, ?_⟩
      exact (denotes_quoted_iff _ _).mpr ⟨items, rest, later, proper.2, rfl, spelled, rfl⟩

theorem denotes_closed_iff (text : List Char) (units : List UInt16) :
    Denotes ('"' :: '"' :: text) units ↔ Denotes text units := by
  constructor
  · intro denotes
    rcases denotes.opened with ⟨rest, same, spelled⟩ | ⟨item, rest, _, same, proper, _⟩
    · rwa [(List.cons_eq_cons.mp same).2]
    · exact absurd same.symm (Item.text_ne_quote proper)
  · intro denotes
    exact (denotes_quoted_iff _ _).mpr ⟨[], text, units, trivial, rfl, denotes, rfl⟩

theorem not_denotes_quote (units : List UInt16) : ¬ Denotes ['"'] units := by
  intro denotes
  obtain ⟨items, rest, _, _, same, _⟩ := (denotes_quoted_iff _ _).mp denotes
  simp at same

theorem Denotes.escaped {text : List Char} {units : List UInt16}
    (denotes : Denotes ('"' :: '\\' :: text) units) :
    (∃ digits rest, text = 'u' :: (digits ++ rest) ∧ IsHex digits) ∨
      ∃ digits rest, text = digits ++ rest ∧ IsOctal digits := by
  rcases denotes.opened with ⟨_, same, _⟩ | ⟨item, rest, _, same, proper, _⟩
  · exact absurd (List.cons_eq_cons.mp same).1 (by decide)
  · cases item with
    | raw character => exact absurd (List.cons_eq_cons.mp same).1.symm proper.2.2
    | hex digits => exact Or.inl ⟨digits, rest, (List.cons_eq_cons.mp same).2, proper⟩
    | octal digits => exact Or.inr ⟨digits, rest, (List.cons_eq_cons.mp same).2, proper.1⟩

theorem denotes_item_iff (item : Item) (rest : List Char) (units : List UInt16)
    (proper : item.Proper rest) :
    Denotes ('"' :: (item.text ++ rest)) units ↔
      ∃ later, units = item.unit :: later ∧ Denotes ('"' :: rest) later := by
  constructor
  · intro denotes
    rcases denotes.opened with ⟨_, same, _⟩ | ⟨other, _, later, same, otherProper, rfl, spelled⟩
    · exact absurd same (Item.text_ne_quote proper)
    · obtain ⟨rfl, rfl⟩ := Item.eq_of_append_eq proper otherProper same
      exact ⟨later, rfl, spelled⟩
  · rintro ⟨later, rfl, denotes⟩
    obtain ⟨items, after, last, body, rfl, spelled, rfl⟩ := (denotes_quoted_iff _ _).mp denotes
    have before := proper.congr (head?_append_quote _ after).symm
    refine (denotes_quoted_iff _ _).mpr ⟨item :: items, after, last, ⟨before, body⟩, ?_, spelled,
      rfl⟩
    simp

end Multistage.Literal
