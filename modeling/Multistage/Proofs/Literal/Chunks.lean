import Multistage.Proofs.Literal.Grammar
import Multistage.Proofs.Literal.Shortest

/-!
How a literal is laid out. Its chunks break the text of the units between escapes only, each as
soon as its line is full, and every chunk gets a line of the text.
-/

namespace Multistage.Literal

/-- The written form of a unit: after a backslash the fewest octal digits, or for more than a byte
the letter u and four hexadecimal digits. -/
inductive Writes (unit : UInt16) : List Char → Prop
  | octal (digits : List Char) (octal : IsOctal digits)
      (fewest : digits.head? = some '0' → digits = ['0'])
      (value : numeral 8 digits = unit.toNat) : Writes unit ('\\' :: digits)
  | hex (digits : List Char) (four : digits.length = 4)
      (lower : ∀ digit ∈ digits, digit ∈ "0123456789abcdef".toList)
      (large : 0xFF < unit.toNat) (value : numeral 16 digits = unit.toNat) :
      Writes unit ('\\' :: 'u' :: digits)

inductive Written : List UInt16 → List Char → Prop
  | nil : Written [] []
  | cons {unit : UInt16} {units : List UInt16} {escape text : List Char}
      (writes : Writes unit escape) (later : Written units text) :
      Written (unit :: units) (escape ++ text)

def chunks (literal : Literal) : List (List Char) :=
  literal.lines.map lineText

def quoted (chunk : List Char) : List Char :=
  [' ', ' ', ' ', ' ', '"'] ++ chunk ++ ['"']

theorem octalDigits_octal (value : Nat) : ∀ digit ∈ octalDigits value, digitValue digit < 8 := by
  intro digit member
  obtain ⟨worth, bound, rfl⟩ := exists_digitChar_of_mem_toDigits (by omega) value digit member
  rwa [digitValue_digitChar worth (by omega)]

theorem isOctal_octalDigits (value : Nat) (byte : value ≤ 0xFF) : IsOctal (octalDigits value) := by
  refine ⟨Nat.toDigits_ne_nil, ?_, octalDigits_octal value, ?_⟩
  · exact (Nat.length_toDigits_le_iff (by omega) (by omega)).mpr (by omega)
  · rwa [octalDigits, numeral_toDigits (by omega) (by omega)]

theorem digitChar_ne_zero : ∀ digit < 8, 0 < digit → Nat.digitChar digit ≠ '0' := by
  decide

theorem exists_octalDigits_eq_cons (value : Nat) (positive : 0 < value) :
    ∃ first later, octalDigits value = first :: later ∧ first ≠ '0' := by
  induction value using Nat.strongRecOn with
  | ind value ih =>
      by_cases single : value < 8
      · exact ⟨_, [], octalDigits_of_lt single, digitChar_ne_zero value single positive⟩
      · obtain ⟨first, later, upper, leading⟩ := ih (value / 8) (by omega) (by omega)
        refine ⟨first, later ++ [Nat.digitChar (value % 8)], ?_, leading⟩
        rw [octalDigits_of_le (by omega), upper, List.cons_append]

theorem digitChar_lower : ∀ digit < 16, Nat.digitChar digit ∈ "0123456789abcdef".toList := by
  decide

theorem numeral_hexDigits (value : Nat) (bound : value < 2 ^ 16) :
    numeral 16 (hexDigits value) = value := by
  have worth (number : Nat) : digitValue (Nat.digitChar (number % 16)) = number % 16 :=
    digitValue_digitChar _ (Nat.mod_lt number (by omega))
  simp only [numeral, hexDigits, List.map_cons, List.map_nil, List.foldl_cons, List.foldl_nil,
    worth]
  omega

theorem writes_escape (unit : UInt16) : Writes unit (escape unit) := by
  rw [escape]
  split
  · rename_i short
    refine .octal _ (isOctal_octalDigits unit.toNat short) ?_
      (numeral_toDigits (by omega) (by omega) unit.toNat)
    intro zero
    by_cases positive : 0 < unit.toNat
    · obtain ⟨first, later, digits, leading⟩ := exists_octalDigits_eq_cons unit.toNat positive
      rw [digits] at zero
      exact absurd (Option.some.inj zero) leading
    · rw [Nat.eq_zero_of_not_pos positive]
      rfl
  · rename_i long
    refine .hex _ rfl ?_ (Nat.lt_of_not_le long) (numeral_hexDigits unit.toNat unit.toNat_lt)
    intro digit member
    simp only [hexDigits, List.map_cons, List.map_nil, List.mem_cons, List.not_mem_nil,
      or_false] at member
    rcases member with rfl | rfl | rfl | rfl <;> exact digitChar_lower _ (Nat.mod_lt _ (by omega))

theorem written_lineText (line : List UInt16) : Written line (lineText line) := by
  induction line with
  | nil => exact .nil
  | cons unit later ih => exact .cons (writes_escape unit) ih

theorem escapeLength_le (unit : UInt16) : escapeLength unit ≤ 6 := by
  rw [escapeLength]
  split
  · omega
  · split
    · omega
    · split <;> omega

theorem lineLength_append (line later : List UInt16) :
    lineLength (line ++ later) = lineLength line + lineLength later := by
  simp only [← length_lineText, lineText, List.flatMap_append, List.length_append]

theorem lineLength_reverse (line : List UInt16) : lineLength line.reverse = lineLength line := by
  induction line with
  | nil => rfl
  | cons unit later ih =>
      rw [List.reverse_cons, lineLength_append, ih, Nat.add_comm]
      rfl

/-- Lines of which the last stands first, with its last unit first: no line was full before its
last unit, and all are but the one that still takes units. -/
structure Laid (lines : List (List UInt16)) : Prop where
  nonempty : ∀ line ∈ lines, line ≠ []
  room : ∀ line ∈ lines, isFull line.tail = false
  full : ∀ line ∈ lines.tail, isFull line = true

theorem Laid.place {lines : List (List UInt16)} (laid : Laid lines) (unit : UInt16) :
    Laid (place lines unit) := by
  cases lines with
  | nil =>
      have empty : isFull [] = false := by decide
      exact ⟨by simp [Literal.place], by simpa [Literal.place] using empty, by simp [Literal.place]⟩
  | cons line above =>
      obtain ⟨nonempty, room, full⟩ := laid
      rw [List.forall_mem_cons] at nonempty room
      rw [Literal.place]
      split
      · rename_i filled
        refine ⟨?_, ?_, ?_⟩
        · simpa using nonempty
        · simpa using ⟨by decide, room⟩
        · simpa using ⟨filled, full⟩
      · rename_i unfilled
        refine ⟨?_, ?_, full⟩
        · simpa using nonempty.2
        · simpa using And.intro (Bool.eq_false_of_not_eq_true unfilled) room.2

theorem Laid.foldl {lines : List (List UInt16)} (laid : Laid lines) (units : List UInt16) :
    Laid (units.foldl Literal.place lines) := by
  induction units generalizing lines with
  | nil => exact laid
  | cons unit later ih => exact ih (laid.place unit)

theorem isFull_reverse (line : List UInt16) : isFull line.reverse = isFull line := by
  rw [isFull, isFull, lineLength_reverse]

theorem laid_ofUnits (units : List UInt16) : Laid (units.foldl Literal.place []) :=
  Laid.foldl ⟨by simp, by simp, by simp⟩ units

theorem mem_lines_ofUnits {units line : List UInt16} (member : line ∈ (ofUnits units).lines) :
    line ≠ [] ∧ isFull line.dropLast = false := by
  have laid := laid_ofUnits units
  obtain ⟨reversed, there, rfl⟩ : ∃ reversed ∈ units.foldl Literal.place [],
      reversed.reverse = line := by simpa [ofUnits] using member
  refine ⟨by simpa using laid.nonempty reversed there, ?_⟩
  rw [List.dropLast_reverse, isFull_reverse]
  exact laid.room reversed there

theorem full_of_mem_dropLast {units line : List UInt16}
    (member : line ∈ (ofUnits units).lines.dropLast) : isFull line = true := by
  have laid := laid_ofUnits units
  rw [ofUnits, List.dropLast_reverse] at member
  obtain ⟨reversed, there, rfl⟩ : ∃ reversed ∈ (units.foldl Literal.place []).tail,
      reversed.reverse = line := by
    rw [List.mem_reverse, ← List.map_tail] at member
    exact List.mem_map.mp member
  rw [isFull_reverse]
  exact laid.full reversed there

theorem isFull_iff (line : List UInt16) :
    isFull line = true ↔ 78 ≤ 5 + (lineText line).length := by
  rw [isFull, decide_eq_true_iff, length_lineText]
  exact Iff.rfl

theorem feed_notMem_of_writes {unit : UInt16} {escape : List Char} (writes : Writes unit escape) :
    '\n' ∉ escape := by
  cases writes with
  | octal digits octal fewest value =>
      intro member
      have digit := octal.octal '\n' (List.mem_of_ne_of_mem (by decide) member)
      exact absurd digit (by decide)
  | hex digits four lower large value =>
      intro member
      have later := List.mem_of_ne_of_mem (by decide) (List.mem_of_ne_of_mem (by decide) member)
      exact absurd (lower '\n' later) (by decide)

theorem feed_notMem_of_written {units : List UInt16} {text : List Char}
    (written : Written units text) : '\n' ∉ text := by
  induction written with
  | nil => simp
  | cons writes later ih =>
      rw [List.mem_append, not_or]
      exact ⟨feed_notMem_of_writes writes, ih⟩

theorem intercalate_plus (chunks : List (List Char)) (some : chunks ≠ []) :
    ['+', '\n'].intercalate (chunks.map quoted) =
      ['\n'].intercalate (chunks.dropLast.map (quoted · ++ ['+']) ++
        [quoted (chunks.getLastD [])]) := by
  induction chunks with
  | nil => contradiction
  | cons chunk later ih =>
      cases later with
      | nil => rfl
      | cons next later =>
          have rest := ih (List.cons_ne_nil next later)
          rw [List.map_cons] at rest
          rw [List.map_cons, List.map_cons, List.intercalate_cons_cons, rest,
            List.dropLast_cons_cons, List.map_cons, List.cons_append,
            List.intercalate_cons_of_ne_nil (by simp)]
          simp

theorem quotedLine_eq (line : List UInt16) : quotedLine line = quoted (lineText line) := by
  have same : margin = [' ', ' ', ' ', ' ', '"'] := by decide
  rw [quotedLine, same]
  rfl

theorem spell_eq (literal : Literal) :
    literal.spell = ['\n'].intercalate
      (literal.chunks.dropLast.map (quoted · ++ ['+']) ++
        [quoted (literal.chunks.getLastD [])]) := by
  obtain ⟨lines⟩ := literal
  cases lines with
  | nil => exact quotedLine_eq []
  | cons line lines =>
      have lines_eq : quotedLine = quoted ∘ lineText := funext quotedLine_eq
      rw [← intercalate_plus _ (by simp [chunks]), chunks, List.map_map, ← lines_eq]
      rfl

theorem exists_runs (values : List UInt16) :
    ∃ runs, Run.Canonical runs ∧ runs.flatMap Run.expand = values ∧
      (ofValues values).lines.flatten = runs.flatMap Run.units := by
  obtain ⟨runs, spelled, canonical, expanded⟩ := exists_canonical values
  rw [units_text] at spelled
  exact ⟨runs, canonical, expanded, Except.ok.inj spelled⟩

theorem chunks_eq_nil_iff (values : List UInt16) :
    (ofValues values).chunks = [] ↔ values = [] := by
  constructor
  · intro none
    obtain ⟨runs, _, rfl, told⟩ := exists_runs values
    rw [List.map_eq_nil_iff.mp none] at told
    have length := length_flatMap_units runs
    rw [← told] at length
    have empty : runs = [] := by
      rw [← List.length_eq_zero_iff]
      simp only [List.flatten_nil, List.length_nil] at length
      omega
    rw [empty]
    rfl
  · rintro rfl
    rfl

theorem exists_last_of_mem_chunks {values : List UInt16} {chunk : List Char}
    (member : chunk ∈ (ofValues values).chunks) :
    ∃ earlier last units unit, chunk = earlier ++ last ∧ Written units earlier ∧
      Writes unit last ∧ earlier.length < 73 ∧ 5 + chunk.length ≤ 83 := by
  obtain ⟨line, there, rfl⟩ := List.mem_map.mp member
  obtain ⟨some, room⟩ := mem_lines_ofUnits there
  have parts : lineText line = lineText line.dropLast ++ escape (line.getLast some) := by
    conv_lhs => rw [← List.dropLast_append_getLast some]
    simp [lineText]
  -- The line had room before its last unit, so only that unit may go past the full column.
  have short : ¬ 78 ≤ 5 + (lineText line.dropLast).length := by
    rw [← isFull_iff, room]
    decide
  have width := escapeLength_le (line.getLast some)
  refine ⟨_, _, _, _, parts, written_lineText _, writes_escape _, by omega, ?_⟩
  rw [parts, List.length_append, length_escape]
  omega

theorem full_of_mem_chunks {values : List UInt16} {chunk : List Char}
    (member : chunk ∈ (ofValues values).chunks.dropLast) : 78 ≤ 5 + chunk.length := by
  rw [chunks, ← List.map_dropLast] at member
  obtain ⟨line, there, rfl⟩ := List.mem_map.mp member
  exact (isFull_iff line).mp (full_of_mem_dropLast there)

theorem lineText_flatten (lines : List (List UInt16)) :
    lineText lines.flatten = (lines.map lineText).flatten := by
  induction lines with
  | nil => rfl
  | cons line lines ih =>
      rw [List.map_cons, List.flatten_cons, List.flatten_cons, ← ih]
      exact List.flatMap_append

theorem feed_notMem_quoted {literal : Literal} {chunk : List Char}
    (member : chunk ∈ [] :: literal.chunks) : '\n' ∉ quoted chunk := by
  have lines : chunk ∈ ([] :: literal.lines).map lineText := member
  obtain ⟨line, _, rfl⟩ := List.mem_map.mp lines
  have text := feed_notMem_of_written (written_lineText line)
  simp only [quoted, List.mem_append, not_or]
  exact ⟨⟨by decide, text⟩, by decide⟩

theorem splitOn_spell (literal : Literal) :
    literal.spell.splitOn '\n' = literal.chunks.dropLast.map (quoted · ++ ['+']) ++
      [quoted (literal.chunks.getLastD [])] := by
  rw [spell_eq, List.splitOn_intercalate]
  · intro text member
    rcases List.mem_append.mp member with joined | last
    · obtain ⟨chunk, before, rfl⟩ := List.mem_map.mp joined
      rw [List.mem_append, not_or]
      have there := List.mem_cons_of_mem [] (List.mem_of_mem_dropLast before)
      exact ⟨feed_notMem_quoted there, by decide⟩
    · rw [List.mem_singleton.mp last]
      exact feed_notMem_quoted List.getLastD_mem_cons
  · simp

/-- The chunks of a literal spell the counts and values of its runs in whole escapes, none of which
begins on a full line, and all but the last chunk fill their line. Every chunk has a line of the
text, ended by a plus sign if another follows; without chunks there is one line with nothing
between its quotes. -/
theorem chunks_ofValues (values : List UInt16) :
    ((ofValues values).chunks = [] ↔ values = []) ∧
    (∀ chunk ∈ (ofValues values).chunks, ∃ earlier last units unit, chunk = earlier ++ last ∧
      Written units earlier ∧ Writes unit last ∧ earlier.length < 73 ∧ 5 + chunk.length ≤ 83) ∧
    (∀ chunk ∈ (ofValues values).chunks.dropLast, 78 ≤ 5 + chunk.length) ∧
    (∃ runs, Run.Canonical runs ∧ runs.flatMap Run.expand = values ∧
      Written (runs.flatMap Run.units) (ofValues values).chunks.flatten) ∧
    (ofValues values).text.toList.splitOn '\n' =
      (ofValues values).chunks.dropLast.map (quoted · ++ ['+']) ++
        [quoted ((ofValues values).chunks.getLastD [])] := by
  refine ⟨chunks_eq_nil_iff values, fun _ => exists_last_of_mem_chunks,
    fun _ => full_of_mem_chunks, ?_, ?_⟩
  · obtain ⟨runs, canonical, expanded, told⟩ := exists_runs values
    refine ⟨runs, canonical, expanded, ?_⟩
    rw [← told, chunks, ← lineText_flatten]
    exact written_lineText _
  · rw [text, String.toList_ofList]
    exact splitOn_spell (ofValues values)

end Multistage.Literal
