import Multistage.Formula.Lookup
import Multistage.Formula.Text
import Multistage.Proofs.Literal.Grammar

/-!
The text of a formula determines the formula. A reader finds every operand again: a word goes on
for as long as it can, and the character after an operand tells whether an operation, a table's
bracket or the end of the surrounding brackets comes next.
-/

namespace Multistage.Formula

open Literal (numeral numeral_toDigits exists_digitChar_of_mem_toDigits)

def isWord (character : Char) : Bool :=
  character.isAlphanum || character == '_'

/-- A letter or an underscore, then letters, digits and underscores, all of them ASCII. -/
def isIdentifier (name : String) : Bool :=
  match name.toList with
  | [] => false
  | first :: later => (first.isAlpha || first == '_') && later.all isWord

def names : Formula → List String
  | input name => [name]
  | num _ | mask _ => []
  | shr left right | shl left right | and left right | or left right => left.names ++ right.names
  | index table position => table :: position.names

def Named (formula : Formula) : Prop :=
  ∀ name ∈ formula.names, isIdentifier name

instance (formula : Formula) : Decidable formula.Named :=
  inferInstanceAs (Decidable (∀ name ∈ formula.names, isIdentifier name))

def readSign : List Char → Option ((Formula → Formula → Formula) × List Char)
  | '>' :: '>' :: text => some (shr, text)
  | '<' :: '<' :: text => some (shl, text)
  | '&' :: text => some (and, text)
  | '|' :: text => some (or, text)
  | _ => none

def readClose (close : Char) (formula : Formula) : List Char → Option (Formula × List Char)
  | [] => none
  | character :: text => if character = close then some (formula, text) else none

def readInside (operand : List Char → Option (Formula × List Char)) (close : Char)
    (text : List Char) : Option (Formula × List Char) := do
  let (left, text) ← operand text
  match readSign text with
  | none => readClose close left text
  | some (combine, text) =>
      let (right, text) ← operand text
      readClose close (combine left right) text

def ofWord (word : List Char) : Formula :=
  if word.all Char.isDigit then
    num (numeral 10 word)
  else
    match word with
    | '0' :: 'x' :: digits => mask (numeral 16 digits)
    | _ => input (String.ofList word)

def afterWord (inside : List Char → Option (Formula × List Char)) (word : List Char) :
    List Char → Option (Formula × List Char)
  | '[' :: text => do
      let (position, text) ← inside text
      return (index (String.ofList word) position, text)
  | text => some (ofWord word, text)

/-- Reads one operand with brackets nested less than `depth` deep; gives the rest of the text. -/
def read : Nat → List Char → Option (Formula × List Char)
  | 0, _ => none
  | depth + 1, '(' :: text => readInside (read depth) ')' text
  | depth + 1, text =>
      afterWord (readInside (read depth) ']') (text.takeWhile isWord) (text.dropWhile isWord)

def ofText? (text : String) : Option Formula :=
  match read text.length text.toList with
  | some (formula, []) => some formula
  | _ => none

def Ends (text : List Char) : Prop :=
  ∀ next ∈ text.head?, isWord next = false ∧ next ≠ '['

theorem isWord_digitChar : ∀ digit < 16, isWord (Nat.digitChar digit) = true := by
  decide

theorem isWord_of_mem_toDigits {base : Nat} (several : 1 < base) (small : base ≤ 16)
    (value : Nat) : ∀ digit ∈ Nat.toDigits base value, isWord digit = true := by
  intro digit member
  obtain ⟨worth, bound, rfl⟩ := exists_digitChar_of_mem_toDigits several value digit member
  exact isWord_digitChar worth (by omega)

theorem isAlpha_of_le : ∀ code ≤ 57, (Char.ofNat code).isAlpha = false := by
  decide

theorem isDigit_of_isAlpha {character : Char} (letter : character.isAlpha = true) :
    character.isDigit = false := by
  rw [← Bool.not_eq_true]
  intro digit
  have small : character.toNat ≤ 57 := by
    rw [Char.isDigit, Bool.and_eq_true, decide_eq_true_eq, decide_eq_true_eq] at digit
    exact digit.2
  have other := isAlpha_of_le character.toNat small
  rw [Char.ofNat_toNat, letter] at other
  contradiction

theorem word_of_isIdentifier {name : String} (identifier : isIdentifier name = true) :
    name.toList ≠ [] ∧ (∀ character ∈ name.toList, isWord character = true) ∧
      ∀ first ∈ name.toList.head?, first.isDigit = false := by
  rw [isIdentifier] at identifier
  split at identifier
  · contradiction
  · rename_i first later spelled
    simp only [Bool.and_eq_true, Bool.or_eq_true, beq_iff_eq, List.all_eq_true] at identifier
    rw [spelled, List.forall_mem_cons, List.head?_cons]
    refine ⟨List.cons_ne_nil first later, ⟨?_, identifier.2⟩, ?_⟩
    · rcases identifier.1 with letter | rfl
      · simp [isWord, Char.isAlphanum, letter]
      · decide
    · rintro _ ⟨⟩
      rcases identifier.1 with letter | rfl
      · exact isDigit_of_isAlpha letter
      · decide

theorem ofWord_toDigits (value : Nat) : ofWord (Nat.toDigits 10 value) = num value := by
  have digits : (Nat.toDigits 10 value).all Char.isDigit = true := by
    rw [List.all_eq_true]
    intro digit member
    exact Nat.isDigit_of_mem_toDigits (by omega) (by omega) member
  unfold ofWord
  rw [if_pos digits, numeral_toDigits (by omega) (by omega)]

theorem ofWord_mask (value : Nat) : ofWord ('0' :: 'x' :: Nat.toDigits 16 value) = mask value := by
  have letter : ('0' :: 'x' :: Nat.toDigits 16 value).all Char.isDigit = false := by
    simp
  unfold ofWord
  rw [letter, if_neg Bool.false_ne_true]
  exact congrArg mask (numeral_toDigits (by omega) (by omega) value)

theorem ofWord_identifier {name : String} (identifier : isIdentifier name = true) :
    ofWord name.toList = input name := by
  obtain ⟨nonempty, _, letter⟩ := word_of_isIdentifier identifier
  obtain ⟨first, later, spelled⟩ := List.exists_cons_of_ne_nil nonempty
  rw [spelled] at letter
  have notDigits : name.toList.all Char.isDigit = false := by
    rw [spelled, List.all_cons, letter first rfl, Bool.false_and]
  unfold ofWord
  rw [notDigits, if_neg Bool.false_ne_true]
  split
  · rename_i digits zero
    rw [spelled] at zero
    obtain ⟨rfl, _⟩ := List.cons_eq_cons.mp zero
    exact absurd (letter '0' rfl) (by decide)
  · rw [String.ofList_toList]

theorem ends_cons {next : Char} (other : isWord next = false) (bracket : next ≠ '[')
    (rest : List Char) : Ends (next :: rest) := by
  rintro _ ⟨⟩
  exact ⟨other, bracket⟩

theorem ends_close {close : Char} (closes : close = ')' ∨ close = ']') (rest : List Char) :
    Ends (close :: rest) := by
  rcases closes with rfl | rfl <;> exact ends_cons (by decide) (by decide) rest

theorem readSign_close {close : Char} (closes : close = ')' ∨ close = ']') (rest : List Char) :
    readSign (close :: rest) = none := by
  rcases closes with rfl | rfl <;> rfl

theorem readClose_cons (close : Char) (formula : Formula) (rest : List Char) :
    readClose close formula (close :: rest) = some (formula, rest) :=
  if_pos rfl

theorem read_word (depth : Nat) {word : List Char} (nonempty : word ≠ [])
    (words : ∀ character ∈ word, isWord character = true) {rest : List Char}
    (stops : ∀ next ∈ rest.head?, isWord next = false) :
    read (depth + 1) (word ++ rest) = afterWord (readInside (read depth) ']') word rest := by
  have whole : (word ++ rest).takeWhile isWord = word ∧ (word ++ rest).dropWhile isWord = rest := by
    rw [List.takeWhile_append_of_pos words, List.dropWhile_append_of_pos words]
    cases rest with
    | nil => simp
    | cons next later => simp [stops next rfl]
  obtain ⟨first, later, rfl⟩ := List.exists_cons_of_ne_nil nonempty
  have unenclosed : ∀ text, first :: later ++ rest = '(' :: text → False := by
    intro text enclosed
    obtain ⟨rfl, _⟩ := List.cons_eq_cons.mp enclosed
    exact absurd (words '(' List.mem_cons_self) (by decide)
  rw [read.eq_3 _ depth unenclosed, whole.1, whole.2]

structure IsSign (combine : Formula → Formula → Formula) (sign : List Char) : Prop where
  spelled : ∀ left right enclosed, (combine left right).spell enclosed =
    operation enclosed (left.spell true) sign (right.spell true)
  read : ∀ text, readSign (sign ++ text) = some (combine, text)
  ends : ∀ text, Ends (sign ++ text)

structure Reads (formula : Formula) : Prop where
  operand : ∀ depth rest, (formula.spell true).length ≤ depth → Ends rest →
    read depth (formula.spell true ++ rest) = some (formula, rest)
  inside : ∀ depth close rest, (formula.spell false).length ≤ depth → close = ')' ∨ close = ']' →
    readInside (read depth) close (formula.spell false ++ close :: rest) = some (formula, rest)

theorem Reads.of_operand {formula : Formula} (bare : formula.spell false = formula.spell true)
    (operand : ∀ depth rest, (formula.spell true).length ≤ depth → Ends rest →
      read depth (formula.spell true ++ rest) = some (formula, rest)) : formula.Reads := by
  refine ⟨operand, ?_⟩
  intro depth close rest enough closes
  rw [bare] at enough ⊢
  rw [readInside, operand depth (close :: rest) enough (ends_close closes rest)]
  simp only [Option.bind_eq_bind, Option.bind_some, readSign_close closes, readClose_cons]

theorem Reads.word {formula : Formula} {word : List Char} (nonempty : word ≠ [])
    (words : ∀ character ∈ word, isWord character = true)
    (spelled : ∀ enclosed, formula.spell enclosed = word) (meant : ofWord word = formula) :
    formula.Reads := by
  refine .of_operand (by rw [spelled, spelled]) ?_
  intro depth rest enough ends
  rw [spelled] at enough ⊢
  have positive := List.length_pos_iff.mpr nonempty
  obtain ⟨depth, rfl⟩ : ∃ shallower, depth = shallower + 1 := ⟨depth - 1, by omega⟩
  have ended : ∀ text, rest = '[' :: text → False := by
    rintro text rfl
    exact (ends '[' rfl).2 rfl
  rw [read_word depth nonempty words fun next member => (ends next member).1,
    afterWord.eq_2 _ _ rest ended, meant]

theorem Reads.operation {combine : Formula → Formula → Formula} {sign : List Char}
    (known : IsSign combine sign) {left right : Formula} (leftReads : left.Reads)
    (rightReads : right.Reads) : (combine left right).Reads := by
  have inside : ∀ depth close rest, ((combine left right).spell false).length ≤ depth →
      close = ')' ∨ close = ']' →
      readInside (read depth) close ((combine left right).spell false ++ close :: rest) =
        some (combine left right, rest) := by
    intro depth close rest enough closes
    simp only [known.spelled, Formula.operation, Bool.false_eq_true, if_false,
      List.length_append] at enough ⊢
    rw [readInside, List.append_assoc, List.append_assoc,
      leftReads.operand depth _ (by omega) (known.ends _)]
    simp only [Option.bind_eq_bind, Option.bind_some, known.read]
    rw [rightReads.operand depth _ (by omega) (ends_close closes rest)]
    simp only [Option.bind_some, readClose_cons]
  refine ⟨?_, inside⟩
  intro depth rest enough ends
  have enclosed : (combine left right).spell true =
      '(' :: (combine left right).spell false ++ [')'] := by
    rw [known.spelled, known.spelled]
    rfl
  rw [enclosed] at enough ⊢
  simp only [List.length_append, List.length_cons] at enough
  obtain ⟨depth, rfl⟩ : ∃ shallower, depth = shallower + 1 := ⟨depth - 1, by omega⟩
  rw [List.append_assoc, List.cons_append, read]
  exact inside depth ')' rest (by omega) (.inl rfl)

theorem Reads.index {table : String} (identifier : isIdentifier table = true)
    {position : Formula} (positionReads : position.Reads) : (index table position).Reads := by
  refine .of_operand rfl ?_
  intro depth rest enough ends
  obtain ⟨nonempty, words, _⟩ := word_of_isIdentifier identifier
  simp only [spell, List.length_append, List.length_cons] at enough
  obtain ⟨depth, rfl⟩ : ∃ shallower, depth = shallower + 1 := ⟨depth - 1, by omega⟩
  have shape : (Formula.index table position).spell true ++ rest =
      table.toList ++ '[' :: (position.spell false ++ ']' :: rest) := by
    simp [spell]
  rw [shape, read_word depth nonempty words (by rintro _ ⟨⟩; decide), afterWord,
    positionReads.inside depth ']' rest (by omega) (.inr rfl)]
  simp [String.ofList_toList]

theorem isSign_shr : IsSign shr ['>', '>'] :=
  ⟨fun _ _ _ => rfl, fun _ => rfl, fun _ => ends_cons (by decide) (by decide) _⟩

theorem isSign_shl : IsSign shl ['<', '<'] :=
  ⟨fun _ _ _ => rfl, fun _ => rfl, fun _ => ends_cons (by decide) (by decide) _⟩

theorem isSign_and : IsSign and ['&'] :=
  ⟨fun _ _ _ => rfl, fun _ => rfl, fun _ => ends_cons (by decide) (by decide) _⟩

theorem isSign_or : IsSign or ['|'] :=
  ⟨fun _ _ _ => rfl, fun _ => rfl, fun _ => ends_cons (by decide) (by decide) _⟩

theorem reads (formula : Formula) (named : formula.Named) : formula.Reads := by
  induction formula with
  | input name =>
      have identifier := named name List.mem_cons_self
      obtain ⟨nonempty, words, _⟩ := word_of_isIdentifier identifier
      exact .word nonempty words (fun _ => rfl) (ofWord_identifier identifier)
  | num value =>
      exact .word Nat.toDigits_ne_nil (isWord_of_mem_toDigits (by omega) (by omega) value)
        (fun _ => rfl) (ofWord_toDigits value)
  | mask value =>
      refine .word (List.cons_ne_nil _ _) ?_ (fun _ => rfl) (ofWord_mask value)
      have digits := isWord_of_mem_toDigits (by omega : 1 < 16) (by omega) value
      simp only [List.forall_mem_cons]
      exact ⟨by decide, by decide, digits⟩
  | shr left right ihLeft ihRight =>
      obtain ⟨leftNamed, rightNamed⟩ := List.forall_mem_append.mp named
      exact .operation isSign_shr (ihLeft leftNamed) (ihRight rightNamed)
  | shl left right ihLeft ihRight =>
      obtain ⟨leftNamed, rightNamed⟩ := List.forall_mem_append.mp named
      exact .operation isSign_shl (ihLeft leftNamed) (ihRight rightNamed)
  | and left right ihLeft ihRight =>
      obtain ⟨leftNamed, rightNamed⟩ := List.forall_mem_append.mp named
      exact .operation isSign_and (ihLeft leftNamed) (ihRight rightNamed)
  | or left right ihLeft ihRight =>
      obtain ⟨leftNamed, rightNamed⟩ := List.forall_mem_append.mp named
      exact .operation isSign_or (ihLeft leftNamed) (ihRight rightNamed)
  | index table position ih =>
      obtain ⟨identifier, positionNamed⟩ := List.forall_mem_cons.mp named
      exact .index identifier (ih positionNamed)

theorem ofText?_text (formula : Formula) (named : formula.Named) :
    ofText? formula.text = some formula := by
  have whole : read formula.text.length (formula.spell true ++ []) = some (formula, []) := by
    refine (reads formula named).operand _ [] ?_ ?_
    · rw [text, String.length_ofList]
    · rintro _ ⟨⟩
  rw [List.append_nil] at whole
  rw [ofText?, show formula.text.toList = formula.spell true from String.toList_ofList, whole]

example : ofText? "((T[cp>>3]<<2)|0xff)" =
    some (or (shl (index "T" (shr (input "cp") (num 3))) (num 2)) (mask 0xff)) := by
  decide

/-- Formulas with the same text are the same, and so are their values. -/
theorem text_unambiguous (left right : Formula) (leftNamed : left.Named) (rightNamed : right.Named)
    (same : left.text = right.text) :
    left = right ∧
      ∀ fetch? value, left.eval? fetch? value = right.eval? fetch? value := by
  have read := ofText?_text left leftNamed
  rw [same, ofText?_text right rightNamed] at read
  obtain rfl := Option.some.inj read
  exact ⟨rfl, fun _ _ => rfl⟩

theorem text_unambiguous_two_tables :
    (index "A" (or (index "Z" (shr (input "cp") (num 8))) (mask 255))).text = "A[Z[cp>>8]|0xff]" ∧
      index "A" (or (index "Z" (shifted (input "cp") 8)) (mask (lowBits 8))) =
        index "A" (or (index "Z" (shr (input "cp") (num 8))) (mask 255)) :=
  ⟨rfl, And.left (text_unambiguous _ _ (by decide) (by decide) rfl)⟩

end Multistage.Formula
