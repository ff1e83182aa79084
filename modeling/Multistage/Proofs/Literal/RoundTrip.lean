import Multistage.Proofs.Literal.Escapes
import Multistage.Proofs.Literal.Runs

/-!
A literal read back gives the units that were placed on its lines, and decoding it gives the
values it was made of.
-/

namespace Multistage.Literal

def placed (lines : List (List UInt16)) : List UInt16 :=
  ((lines.map List.reverse).reverse).flatten

theorem placed_place (lines : List (List UInt16)) (unit : UInt16) :
    placed (place lines unit) = placed lines ++ [unit] := by
  cases lines with
  | nil => rfl
  | cons line above =>
      rw [place]
      split
      · simp [placed]
      · simp [placed]

theorem placed_foldl (lines : List (List UInt16)) (units : List UInt16) :
    placed (units.foldl place lines) = placed lines ++ units := by
  induction units generalizing lines with
  | nil => simp
  | cons unit later ih => simp [ih, placed_place]

theorem flatten_lines_ofUnits (units : List UInt16) : (ofUnits units).lines.flatten = units :=
  placed_foldl [] units

namespace Reader

def State.Between (state : State) (units : List UInt16) : Prop :=
  state.mode = .outside ∧ state.units.toList = units

theorem run_lineText (state : State) (units line : List UInt16) (spells : state.Spells units) :
    ∃ next, run state (lineText line) = .ok next ∧ next.Spells (units ++ line) := by
  induction line generalizing state units with
  | nil => exact ⟨state, rfl, by simpa using spells⟩
  | cons unit later ih =>
      obtain ⟨after, escaped, afterSpells⟩ := run_escape state units unit spells
      obtain ⟨next, rest, nextSpells⟩ := ih after (units ++ [unit]) afterSpells
      refine ⟨next, ?_, by simpa using nextSpells⟩
      rw [lineText, List.flatMap_cons, run_append, escaped]
      exact rest

theorem run_outside (state : State) (units : List UInt16) (between : state.Between units)
    (character : Char) (later : List Char) (skipped : character = '+' ∨ isBlank character = true)
    (noQuote : character ≠ '"') :
    ∃ next : State, run state (character :: later) = run next later ∧ next.Between units := by
  have read : state.read character = .ok state := by
    simp only [State.read, between.1, State.readOutside, noQuote, if_false, skipped, if_true]
  exact ⟨state.advance character, run_cons read later, between⟩

theorem run_margin (state : State) (units : List UInt16) (between : state.Between units)
    (later : List Char) :
    ∃ next : State, run state (margin ++ later) = run next later ∧ next.Spells units := by
  obtain ⟨one, toOne, oneBetween⟩ := run_outside state units between ' ' _ (by decide) (by decide)
  obtain ⟨two, toTwo, twoBetween⟩ := run_outside one units oneBetween ' ' _ (by decide) (by decide)
  obtain ⟨three, toThree, threeBetween⟩ :=
    run_outside two units twoBetween ' ' _ (by decide) (by decide)
  obtain ⟨four, toFour, fourBetween⟩ :=
    run_outside three units threeBetween ' ' _ (by decide) (by decide)
  have read : four.read '"' = .ok (four.enter .quoted) := by
    simp only [State.read, fourBetween.1, State.readOutside, if_true]
  refine ⟨(four.enter .quoted).advance '"', ?_, Or.inl ⟨rfl, fourBetween.2⟩⟩
  exact toOne.trans (toTwo.trans (toThree.trans (toFour.trans (run_cons read later))))

theorem run_quotedLine (state : State) (units line : List UInt16) (between : state.Between units) :
    ∃ next, run state (quotedLine line) = .ok next ∧ next.Between (units ++ line) := by
  obtain ⟨opened, margined, openedSpells⟩ := run_margin state units between (lineText line ++ ['"'])
  obtain ⟨full, text, fullSpells⟩ := run_lineText opened units line openedSpells
  obtain ⟨closed, read, mode, spelled⟩ := fullSpells.read_quote
  refine ⟨closed.advance '"', ?_, mode, spelled⟩
  rw [quotedLine, List.append_assoc, margined, run_append, text]
  exact run_cons read []

theorem run_lines (state : State) (units line : List UInt16) (lines : List (List UInt16))
    (between : state.Between units) :
    ∃ next, run state (['+', '\n'].intercalate ((line :: lines).map quotedLine)) = .ok next ∧
      next.Between (units ++ (line :: lines).flatten) := by
  induction lines generalizing state units line with
  | nil => simpa [List.intercalate] using run_quotedLine state units line between
  | cons following lines ih =>
      obtain ⟨ended, first, endedBetween⟩ := run_quotedLine state units line between
      obtain ⟨plus, toPlus, plusBetween⟩ :=
        run_outside ended _ endedBetween '+' ('\n' :: ['+', '\n'].intercalate
          ((following :: lines).map quotedLine)) (by decide) (by decide)
      obtain ⟨feed, toFeed, feedBetween⟩ := run_outside plus _ plusBetween '\n' _
        (by decide) (by decide)
      obtain ⟨next, rest, nextBetween⟩ := ih feed (units ++ line) following feedBetween
      refine ⟨next, ?_, by simpa using nextBetween⟩
      rw [List.map_cons, List.map_cons, List.intercalate_cons_cons, List.append_assoc, run_append,
        first]
      exact (toPlus.trans toFeed).trans rest

theorem run_spell (state : State) (units : List UInt16) (literal : Literal)
    (between : state.Between units) :
    ∃ next, run state literal.spell = .ok next ∧
      next.Between (units ++ literal.lines.flatten) := by
  rw [spell, isEmpty]
  cases literal.lines with
  | nil => simpa using run_quotedLine state units [] between
  | cons line lines => exact run_lines state units line lines between

end Reader

theorem units_text (literal : Literal) : units literal.text = .ok literal.lines.flatten := by
  obtain ⟨next, read, mode, spelled⟩ := Reader.run_spell {} [] literal ⟨rfl, rfl⟩
  rw [units, text, String.toList_ofList, read]
  change next.finish = _
  rw [Reader.State.finish, mode, spelled, List.nil_append]

theorem decode_ofValues (values : List UInt16) :
    decode (ofValues values).text values.length = .ok values := by
  obtain ⟨expanded, sound⟩ := Encoder.push_foldl {} values (by simp)
  have ordered : ∀ run ∈ (values.foldl Encoder.push {}).runs.reverse, run.Sound := fun run member =>
    sound run (List.mem_reverse.mp member)
  have fills := expand_units _ ordered
  change Run.values _ = [] ++ values at expanded
  rw [List.nil_append, Run.values] at expanded
  rw [expanded] at fills
  rw [decode, units_text, ofValues, Encoder.finish, flatten_lines_ofUnits]
  exact fills

theorem eq_expand_of_decode (text : String) (declared : Nat) (read values : List UInt16)
    (spelled : units text = .ok read) (decoded : decode text declared = .ok values) :
    values = (Run.ofUnits read).flatMap Run.expand := by
  rw [decode, spelled] at decoded
  exact ((expand_eq_ok_iff declared read values).mp decoded).2.2.1

/-- A literal loses nothing: its text decodes to the values that it was made of, and no other
values are written as the same text. Values that fit into memory are also loaded again. -/
theorem text_ofValues_lossless (values : List UInt16) :
    decode (ofValues values).text values.length = .ok values ∧
      (values.length < 2 ^ 62 →
        load (ofValues values).text values.length = some (.ok values)) ∧
      ∀ other, (ofValues values).text = (ofValues other).text ↔ values = other := by
  refine ⟨decode_ofValues values, ?_, fun other => ⟨?_, fun same => by rw [same]⟩⟩
  · intro short
    exact (load_eq_some_iff _ _ _).mpr ⟨decode_ofValues values, fun stops => by omega⟩
  intro same
  have spelled := units_text (ofValues values)
  have first := eq_expand_of_decode _ _ _ _ spelled (decode_ofValues values)
  rw [same] at spelled
  exact first.trans (eq_expand_of_decode _ _ _ _ spelled (decode_ofValues other)).symm

example : (ofValues [7, 7, 7, 300]).text = "    \"\\3\\7\\1\\u012c\"" := by
  decide

end Multistage.Literal
