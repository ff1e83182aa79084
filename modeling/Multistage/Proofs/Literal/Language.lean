import Mathlib.Data.List.Basic
import Multistage.Literal.Reader
import Multistage.Proofs.Literal.Grammar
import Multistage.Proofs.Outcome

/-!
The reader accepts the language of literals and nothing else. While it is in the middle of an
escape, the text of that escape is pending: it is read, but what it stands for depends on what
comes after it.
-/

namespace Multistage.Literal

theorem not_le_of_beyond (character last : Char) (beyond : 128 ≤ character.toNat)
    (ascii : last.toNat < 128) : ¬ character ≤ last := by
  intro below
  have codes : character.toNat ≤ last.toNat := UInt32.le_iff_toNat_le.mp (Char.le_def.mp below)
  omega

theorem digitValue_beyond (character : Char) (beyond : 128 ≤ character.toNat) :
    digitValue character = 16 := by
  have lower : character.toLower = character := by
    have above : ¬ character ≤ 'Z' := not_le_of_beyond character 'Z' beyond (by decide)
    refine dif_neg ?_
    rintro ⟨_, below⟩
    exact above below
  have absent : character ∉ "0123456789abcdef".toList := by
    intro member
    have ascii : "0123456789abcdef".toList.all (·.toNat < 128) = true := by decide
    have code := List.all_eq_true.mp ascii character member
    simp only [decide_eq_true_eq] at code
    omega
  rw [digitValue, lower, List.idxOf_eq_length absent]
  rfl

theorem eq_digitValue (value? : Char → Option Nat) (base : Nat) (small : base ≤ 16)
    (ascii : ∀ code < 128, value? (Char.ofNat code) =
      if digitValue (Char.ofNat code) < base then some (digitValue (Char.ofNat code)) else none)
    (beyond : ∀ character : Char, 128 ≤ character.toNat → value? character = none)
    (character : Char) :
    value? character =
      if digitValue character < base then some (digitValue character) else none := by
  -- Outside ASCII there are no digits, so the characters of ASCII tell all about a base.
  by_cases code : character.toNat < 128
  · have known := ascii character.toNat code
    rwa [Char.ofNat_toNat] at known
  · have large := digitValue_beyond character (by omega)
    rw [beyond character (by omega), if_neg (by omega)]

theorem octalValue?_eq (character : Char) :
    octalValue? character =
      if digitValue character < 8 then some (digitValue character) else none := by
  refine eq_digitValue octalValue? 8 (by omega) (by decide +kernel) ?_ character
  intro other beyond
  simp [octalValue?, not_le_of_beyond other '7' beyond (by decide)]

theorem hexValue?_eq (character : Char) :
    hexValue? character =
      if digitValue character < 16 then some (digitValue character) else none := by
  refine eq_digitValue hexValue? 16 (by omega) (by decide +kernel) ?_ character
  intro other beyond
  simp [hexValue?, not_le_of_beyond other '9' beyond (by decide),
    not_le_of_beyond other 'f' beyond (by decide), not_le_of_beyond other 'F' beyond (by decide)]

theorem mem_of_append_eq {digits others rest later : List Char} {character : Char}
    (same : digits ++ character :: rest = others ++ later)
    (longer : digits.length < others.length) : character ∈ others := by
  have found : others[digits.length]? = some character := by
    rw [← List.getElem?_append_left longer, ← same]
    simp
  exact List.mem_of_getElem? found

namespace Reader

inductive Pending : Mode → List Char → Prop
  | outside : Pending .outside []
  | quoted : Pending .quoted ['"']
  | backslash (start : Nat) : Pending (.backslash start) ['"', '\\']
  | hex (start : Nat) (digits : List Char) (few : digits.length < 4)
      (hex : ∀ digit ∈ digits, digitValue digit < 16) :
      Pending (.hex start digits.length (numeral 16 digits)) ('"' :: '\\' :: 'u' :: digits)
  | octal (digits : List Char) (octal : IsOctal digits) :
      Pending (.octal digits.length (numeral 8 digits)) ('"' :: '\\' :: digits)

namespace State

def Yields (state : State) (text : List Char) (units : List UInt16) : Prop :=
  ∃ later, Denotes text later ∧ units = state.units.toList ++ later

/-- What one more character has to lead to. A refusal means that no text goes on this way; else
the next state yields the same, whatever comes after the character. -/
def Settles (state : State) (pending : List Char) (character : Char) : Except Fault State → Prop
  | .ok next => ∃ text, Pending next.mode text ∧ ∀ rest units,
      state.Yields (pending ++ character :: rest) units ↔ next.Yields (text ++ rest) units
  | .error _ => ∀ rest units, ¬ state.Yields (pending ++ character :: rest) units

theorem yields_push_iff (state : State) (item : Item) (number : Nat) (rest : List Char)
    (units : List UInt16) (proper : item.Proper rest) (unit : item.unit = number.toUInt16) :
    state.Yields ('"' :: (item.text ++ rest)) units ↔
      (state.push number).Yields ('"' :: rest) units := by
  constructor
  · rintro ⟨later, denotes, rfl⟩
    obtain ⟨after, rfl, spelled⟩ := (denotes_item_iff item rest later proper).mp denotes
    refine ⟨after, spelled, ?_⟩
    simp [push, unit]
  · rintro ⟨later, denotes, rfl⟩
    refine ⟨item.unit :: later, (denotes_item_iff item rest _ proper).mpr ⟨later, rfl, denotes⟩, ?_⟩
    simp [push, unit]

theorem Settles.after_item {state : State} {number : Nat} {character : Char}
    {result : Except Fault State} (item : Item) (proper : ∀ rest, item.Proper (character :: rest))
    (unit : item.unit = number.toUInt16)
    (settles : (state.push number).Settles ['"'] character result) :
    state.Settles ('"' :: item.text) character result := by
  have same (rest : List Char) (units : List UInt16) :=
    yields_push_iff state item number (character :: rest) units (proper rest) unit
  cases result with
  | ok next =>
      obtain ⟨text, pending, goesOn⟩ := settles
      exact ⟨text, pending, fun rest units => (same rest units).trans (goesOn rest units)⟩
  | error fault => exact fun rest units yields => settles rest units ((same rest units).mp yields)

theorem settles_outside (state : State) (character : Char) (mode : state.mode = .outside) :
    state.Settles [] character (state.readOutside character) := by
  rw [readOutside]
  by_cases quote : character = '"'
  · subst character
    rw [if_pos rfl]
    exact ⟨['"'], .quoted, fun rest units => Iff.rfl⟩
  · rw [if_neg quote]
    by_cases gap : character = '+' ∨ isBlank character = true
    · rw [if_pos gap]
      refine ⟨[], mode ▸ .outside, ?_⟩
      intro rest units
      simp only [Yields, List.nil_append, denotes_gap_iff character rest _ gap]
    · rw [if_neg gap]
      rintro rest units ⟨later, denotes, _⟩
      rcases denotes.starts with same | same
      · exact quote same
      · exact gap same

theorem settles_quoted (state : State) (character : Char) :
    state.Settles ['"'] character (state.readQuoted character) := by
  rw [readQuoted]
  by_cases quote : character = '"'
  · subst character
    rw [if_pos rfl]
    refine ⟨[], .outside, ?_⟩
    intro rest units
    exact exists_congr fun later => and_congr_left' (denotes_closed_iff rest later)
  · rw [if_neg quote]
    by_cases backslash : character = '\\'
    · subst character
      rw [if_pos rfl]
      exact ⟨['"', '\\'], .backslash state.position, fun rest units => Iff.rfl⟩
    · rw [if_neg backslash]
      by_cases short : character.toNat ≤ 0xFFFF
      · rw [if_pos short]
        refine ⟨['"'], .quoted, ?_⟩
        intro rest units
        exact yields_push_iff state (.raw character) character.toNat rest units
          ⟨short, quote, backslash⟩ rfl
      · rw [if_neg short]
        rintro rest units ⟨later, denotes, _⟩
        rcases denotes.opened with ⟨_, same, _⟩ | ⟨item, _, _, same, proper, _⟩
        · exact quote (List.cons_eq_cons.mp same).1
        · cases item with
          | raw other =>
              rw [(List.cons_eq_cons.mp same).1] at short
              exact short proper.1
          | hex digits => exact backslash (List.cons_eq_cons.mp same).1
          | octal digits => exact backslash (List.cons_eq_cons.mp same).1

theorem settles_backslash (state : State) (start : Nat) (character : Char) :
    state.Settles ['"', '\\'] character (state.readBackslash start character) := by
  rw [readBackslash]
  by_cases letter : character = 'u'
  · subst character
    rw [if_pos rfl]
    exact ⟨['"', '\\', 'u'], .hex start [] (by simp) (by simp), fun rest units => Iff.rfl⟩
  · rw [if_neg letter, octalValue?_eq]
    by_cases digit : digitValue character < 8
    · rw [if_pos digit]
      have single : numeral 8 [character] = digitValue character := by simp [numeral]
      have octal : IsOctal [character] := by
        refine ⟨by simp, by simp, ?_, by omega⟩
        intro other member
        rwa [List.mem_singleton.mp member]
      refine ⟨['"', '\\', character], ?_, fun rest units => Iff.rfl⟩
      rw [← single]
      exact .octal [character] octal
    · rw [if_neg digit]
      rintro rest units ⟨later, denotes, _⟩
      rcases denotes.escaped with ⟨_, _, same, _⟩ | ⟨digits, _, same, octal⟩
      · exact letter (List.cons_eq_cons.mp same).1
      · cases digits with
        | nil => exact octal.nonempty rfl
        | cons first digits =>
            rw [(List.cons_eq_cons.mp same).1] at digit
            exact digit (octal.octal first List.mem_cons_self)

theorem settles_hex (state : State) (start : Nat) (digits : List Char) (character : Char)
    (few : digits.length < 4) (hex : ∀ digit ∈ digits, digitValue digit < 16) :
    state.Settles ('"' :: '\\' :: 'u' :: digits) character
      (state.readHex start digits.length (numeral 16 digits) character) := by
  have value := numeral_append_singleton 16 digits character
  have length : (digits ++ [character]).length = digits.length + 1 := by simp
  rw [readHex, hexValue?_eq]
  by_cases digit : digitValue character < 16
  · rw [if_pos digit]
    have allHex : ∀ other ∈ digits ++ [character], digitValue other < 16 := by
      simpa [or_imp, forall_and] using ⟨hex, digit⟩
    by_cases last : digits.length = 3
    · simp only [last, if_true]
      refine ⟨['"'], .quoted, ?_⟩
      intro rest units
      have push := yields_push_iff state (.hex (digits ++ [character])) _ rest units
        ⟨by omega, allHex⟩ (congrArg Nat.toUInt16 value)
      simpa [Item.text] using push
    · simp only [last, if_false]
      refine ⟨'"' :: '\\' :: 'u' :: (digits ++ [character]), ?_, ?_⟩
      · rw [← value, ← length]
        exact .hex start (digits ++ [character]) (by omega) allHex
      · intro rest units
        simp only [List.cons_append, List.append_assoc]
        exact Iff.rfl
  · rw [if_neg digit]
    rintro rest units ⟨later, denotes, _⟩
    rcases denotes.escaped with ⟨others, after, same, othersHex⟩ | ⟨others, after, same, octal⟩
    · -- Four digits would have to take in this character, which is none.
      have next := List.cons_eq_cons.mp same
      have member := mem_of_append_eq next.2 (by rw [othersHex.four]; exact few)
      exact digit (othersHex.hex character member)
    · exact Item.octal_ne_u octal same

theorem settles_octal (state : State) (digits : List Char) (character : Char)
    (octal : IsOctal digits) :
    state.Settles ('"' :: '\\' :: digits) character
      (state.readOctal digits.length (numeral 8 digits) character) := by
  have value := numeral_append_singleton 8 digits character
  have length : (digits ++ [character]).length = digits.length + 1 := by simp
  -- The escape ends in front of a character that makes no byte with its digits.
  have ends (last : ¬ IsOctal (digits ++ [character])) :
      state.Settles ('"' :: '\\' :: digits) character
        ((state.push (numeral 8 digits)).readQuoted character) := by
    refine Settles.after_item (.octal digits) ?_ rfl (settles_quoted _ character)
    intro rest
    refine (Item.proper_octal_iff digits _).mpr ⟨octal, ?_⟩
    intro next head
    rwa [← Option.some.inj head]
  rw [readOctal, octalValue?_eq]
  by_cases digit : digitValue character < 8
  · rw [if_pos digit]
    by_cases fits : digits.length < 3 ∧ 8 * numeral 8 digits + digitValue character ≤ 0xFF
    · simp only [fits, and_self, if_true]
      have more : IsOctal (digits ++ [character]) := by
        refine ⟨by simp, by omega, ?_, by omega⟩
        simpa [or_imp, forall_and] using ⟨octal.octal, digit⟩
      refine ⟨'"' :: '\\' :: (digits ++ [character]), ?_, ?_⟩
      · rw [← value, ← length]
        exact .octal (digits ++ [character]) more
      · intro rest units
        simp only [List.cons_append, List.append_assoc]
        exact Iff.rfl
    · simp only [fits, if_false]
      apply ends
      intro more
      have few := more.few
      have byte := more.byte
      omega
  · rw [if_neg digit]
    apply ends
    intro more
    exact digit (more.octal character (by simp))

theorem settles_read (state : State) (pending : List Char) (character : Char)
    (isPending : Pending state.mode pending) :
    state.Settles pending character (state.read character) := by
  rw [read]
  generalize modeEq : state.mode = mode at isPending
  cases isPending with
  | outside => exact settles_outside state character modeEq
  | quoted => exact settles_quoted state character
  | backslash start => exact settles_backslash state start character
  | hex start digits few hex => exact settles_hex state start digits character few hex
  | octal digits octal => exact settles_octal state digits character octal

theorem finish_eq_ok_iff (state : State) (pending : List Char) (units : List UInt16)
    (isPending : Pending state.mode pending) :
    state.finish = .ok units ↔ state.Yields pending units := by
  rw [finish]
  generalize state.mode = mode at isPending
  cases isPending with
  | outside =>
      simp [Yields, denotes_nil_iff, eq_comm]
  | quoted =>
      simp only [reduceCtorEq, false_iff]
      rintro ⟨later, denotes, _⟩
      exact not_denotes_quote later denotes
  | backslash start =>
      simp only [reduceCtorEq, false_iff]
      rintro ⟨later, denotes, _⟩
      rcases denotes.escaped with ⟨_, _, same, _⟩ | ⟨digits, rest, same, octal⟩
      · simp at same
      · exact octal.nonempty (List.nil_eq_append_iff.mp same).1
  | hex start digits few hex =>
      simp only [reduceCtorEq, false_iff]
      rintro ⟨later, denotes, _⟩
      rcases denotes.escaped with ⟨others, rest, same, othersHex⟩ | ⟨others, rest, same, octal⟩
      · rw [(List.cons_eq_cons.mp same).2, List.length_append, othersHex.four] at few
        omega
      · exact Item.octal_ne_u octal same
  | octal digits octal =>
      simp only [reduceCtorEq, false_iff]
      rintro ⟨later, denotes, _⟩
      have proper : (Item.octal digits).Proper [] :=
        (Item.proper_octal_iff digits []).mpr ⟨octal, by simp⟩
      rw [← List.append_nil digits] at denotes
      obtain ⟨after, _, open_⟩ := (denotes_item_iff (.octal digits) [] later proper).mp denotes
      exact not_denotes_quote after open_

end State

theorem run_finish_eq_ok_iff (state : State) (pending characters : List Char)
    (units : List UInt16) (isPending : Pending state.mode pending) :
    run state characters >>= State.finish = .ok units ↔
      state.Yields (pending ++ characters) units := by
  induction characters generalizing state pending with
  | nil =>
      rw [List.append_nil]
      exact state.finish_eq_ok_iff pending units isPending
  | cons character characters ih =>
      have settles := state.settles_read pending character isPending
      rw [run, List.foldlM_cons, State.step]
      cases read : state.read character with
      | error fault =>
          rw [read] at settles
          have refused := settles characters units
          simp only [Except.map, bind, Except.bind, reduceCtorEq, false_iff]
          exact refused
      | ok next =>
          rw [read] at settles
          obtain ⟨text, nextPending, same⟩ := settles
          exact (ih (next.advance character) text nextPending).trans (same characters units).symm

end Reader

/-- A text is read exactly if it can be put together of pieces, and it gives the units that these
stand for. There are no two ways to put a text together. -/
theorem units_eq_ok_iff_denotes (text : String) (values : List UInt16) :
    (units text = .ok values ↔ Denotes text.toList values) ∧
      ∀ pieces others, Spelling pieces text.toList → Spelling others text.toList →
        pieces = others := by
  constructor
  · have read := Reader.run_finish_eq_ok_iff {} [] text.toList values .outside
    rw [units, read]
    simp [Reader.State.Yields]
  · intro pieces others spells otherSpells
    exact spells.unique otherSpells

theorem units_eq_ok_iff_denotes_octal_limit :
    units "\"\\400\\u004F\" +" = .ok [32, 48, 79] ∧
      ∀ others, Spelling others "\"\\400\\u004F\" +".toList →
        others = [.quoted [.octal ['4', '0'], .raw '0', .hex ['0', '0', '4', 'F']], .blank ' ',
          .plus] := by
  have spells : Spelling [.quoted [.octal ['4', '0'], .raw '0', .hex ['0', '0', '4', 'F']],
      .blank ' ', .plus] "\"\\400\\u004F\" +".toList := by
    decide
  obtain ⟨read, unique⟩ := units_eq_ok_iff_denotes "\"\\400\\u004F\" +" [32, 48, 79]
  refine ⟨read.mpr ⟨_, spells, by decide⟩, ?_⟩
  intro others otherSpells
  exact unique others _ otherSpells spells

end Multistage.Literal
