import Multistage.Proofs.Literal.Concatenation
import Multistage.Proofs.Literal.Language

/-!
What the faults of a text point at. The reader refuses a character between quoted parts only, or
within quotes at one that begins nothing; all of the text before that place is fine so far. An
escape is blamed where it began, however late it went wrong.
-/

namespace Multistage.Literal

structure Cut (text : String) (position : Nat) (before : String) (character : Char)
    (after : List Char) : Prop where
  text : text.toList = before.toList ++ character :: after
  position : before.utf8ByteSize = position

def OpensEscape (after : List Char) : Prop :=
  ∃ digits, (IsHex digits ∧ 'u' :: digits <+: after) ∨ (IsOctal digits ∧ digits <+: after)

/-- What a fault says of a text, told by texts that are read in place of it. -/
def Blames (text : String) : Fault → Prop
  | .strayCharacter position => ∃ before character after,
      Cut text position before character after ∧ (∃ read, units before = .ok read) ∧
        character ≠ '"' ∧ character ≠ '+' ∧ isBlank character = false
  | .unterminated => ∃ read, units (text ++ "\"") = .ok read
  | .badEscape position => ∃ before character after,
      Cut text position before character after ∧ units before = .error .unterminated ∧
        (character = '\\' ∧ ¬ OpensEscape after ∨ 0xFFFF < character.toNat)
  | _ => False

theorem units_ofList (characters : List Char) :
    units (String.ofList characters) = Reader.run {} characters >>= Reader.State.finish := by
  rw [units, String.toList_ofList]

theorem not_opensEscape_nil : ¬ OpensEscape [] := by
  rintro ⟨digits, ⟨_, takes⟩ | ⟨octal, takes⟩⟩
  · simp at takes
  · exact octal.nonempty (List.prefix_nil.mp takes)

theorem opensEscape_u_iff (after : List Char) :
    OpensEscape ('u' :: after) ↔ ∃ digits, IsHex digits ∧ digits <+: after := by
  constructor
  · rintro ⟨digits, ⟨hex, takes⟩ | ⟨octal, rest, takes⟩⟩
    · exact ⟨digits, hex, List.prefix_cons_iff.mp takes |>.elim (by simp) (by simp)⟩
    · exact absurd takes.symm (Item.octal_ne_u octal)
  · rintro ⟨digits, hex, takes⟩
    exact ⟨digits, Or.inl ⟨hex, (List.prefix_cons_inj 'u').mpr takes⟩⟩

namespace Reader

/-- The reader is in the middle of an escape that may still go wrong: its backslash stands at
`start`, and it has these characters so far. -/
inductive Middle : Mode → Nat → List Char → Prop
  | backslash (start : Nat) : Middle (.backslash start) start []
  | hex (start count value : Nat) (digits : List Char) (length : digits.length = count)
      (few : count < 4) (hex : ∀ digit ∈ digits, digitValue digit < 16) :
      Middle (.hex start count value) start ('u' :: digits)

def Settled : Mode → Prop
  | .backslash _ => False
  | .hex _ _ _ => False
  | _ => True

def Continues (start : Nat) (begun : List Char) (character : Char) : Except Fault State → Prop
  | .ok next => Middle next.mode start (begun ++ [character]) ∨
      Settled next.mode ∧ ∀ rest, OpensEscape (begun ++ character :: rest)
  | .error fault => fault = .badEscape start ∧ ∀ rest, ¬ OpensEscape (begun ++ character :: rest)

theorem continues_backslash (state : State) (start : Nat) (character : Char) :
    Continues start [] character (state.readBackslash start character) := by
  rw [State.readBackslash]
  by_cases letter : character = 'u'
  · subst character
    rw [if_pos rfl]
    exact Or.inl (.hex start 0 0 [] rfl (by decide) (by simp))
  · rw [if_neg letter, octalValue?_eq]
    by_cases digit : digitValue character < 8
    · rw [if_pos digit]
      refine Or.inr ⟨trivial, fun rest => ⟨[character], Or.inr ⟨?_, by simp⟩⟩⟩
      refine ⟨by simp, by simp, by simpa using digit, ?_⟩
      simp only [numeral, List.foldl_cons, List.foldl_nil]
      omega
    · rw [if_neg digit]
      refine ⟨rfl, fun rest => ?_⟩
      rintro ⟨digits, ⟨_, takes⟩ | ⟨octal, takes⟩⟩
      · exact letter (List.cons_prefix_cons.mp takes).1.symm
      · cases digits with
        | nil => exact octal.nonempty rfl
        | cons first digits =>
            have same := (List.cons_prefix_cons.mp takes).1
            subst first
            exact digit (octal.octal character List.mem_cons_self)

theorem continues_hex (state : State) (start count value : Nat) (digits : List Char)
    (character : Char) (length : digits.length = count) (few : count < 4)
    (hex : ∀ digit ∈ digits, digitValue digit < 16) :
    Continues start ('u' :: digits) character (state.readHex start count value character) := by
  rw [State.readHex, hexValue?_eq]
  by_cases digit : digitValue character < 16
  · rw [if_pos digit]
    have allHex : ∀ other ∈ digits ++ [character], digitValue other < 16 := by
      simpa [or_imp, forall_and] using ⟨hex, digit⟩
    by_cases last : count = 3
    · simp only [last, if_true]
      refine Or.inr ⟨trivial, fun rest => (opensEscape_u_iff _).mpr ⟨digits ++ [character], ?_, ?_⟩⟩
      · exact ⟨by simp [length, last], allHex⟩
      · simp
    · simp only [last, if_false]
      exact Or.inl (.hex start (count + 1) _ (digits ++ [character]) (by simp [length]) (by omega)
        allHex)
  · rw [if_neg digit]
    refine ⟨rfl, fun rest opens => ?_⟩
    obtain ⟨others, othersHex, after, takes⟩ := (opensEscape_u_iff _).mp opens
    have member := mem_of_append_eq takes.symm (by rw [othersHex.four, length]; exact few)
    exact digit (othersHex.hex character member)

theorem Middle.continues {state : State} {start : Nat} {begun : List Char}
    (middle : Middle state.mode start begun) (character : Char) :
    Continues start begun character (state.read character) := by
  rw [State.read]
  generalize state.mode = mode at middle
  cases middle with
  | backslash => exact continues_backslash state start character
  | hex _ count value digits length few hex =>
      exact continues_hex state start count value digits character length few hex

theorem Middle.finish {state : State} {start : Nat} {begun : List Char}
    (middle : Middle state.mode start begun) :
    state.finish = .error (.badEscape start) ∧ ¬ OpensEscape begun := by
  rw [State.finish]
  generalize state.mode = mode at middle
  cases middle with
  | backslash => exact ⟨rfl, not_opensEscape_nil⟩
  | hex _ count value digits length few hex =>
      refine ⟨rfl, fun opens => ?_⟩
      obtain ⟨others, othersHex, takes⟩ := (opensEscape_u_iff _).mp opens
      have short := takes.length_le
      rw [othersHex.four] at short
      omega

def StaysInside (position : Nat) (character : Char) : Except Fault State → Prop
  | .ok next => Settled next.mode ∨ character = '\\' ∧ next.mode = .backslash position
  | .error fault => fault = .badEscape position ∧ 0xFFFF < character.toNat

theorem staysInside_readQuoted (state : State) (character : Char) :
    StaysInside state.position character (state.readQuoted character) := by
  rw [State.readQuoted]
  split
  · exact Or.inl trivial
  · split
    · rename_i backslash
      exact Or.inr ⟨backslash, rfl⟩
    · split
      · exact Or.inl trivial
      · rename_i large
        exact ⟨rfl, Nat.lt_of_not_le large⟩

theorem State.finish_eq_unterminated_iff (state : State) :
    state.finish = .error .unterminated ↔ ∃ units, state.Spells units := by
  rw [finish]
  cases mode : state.mode <;> simp [Spells, mode]

theorem State.Spells.staysInside {state : State} {units : List UInt16} (spells : state.Spells units)
    (character : Char) : StaysInside state.position character (state.read character) := by
  rw [State.read]
  rcases spells with ⟨mode, _⟩ | ⟨digits, value, mode, _⟩
  · rw [mode]
    exact staysInside_readQuoted state character
  · rw [mode]
    simp only [State.readOctal]
    cases octalValue? character with
    | none => exact staysInside_readQuoted (state.push value) character
    | some digit =>
        simp only
        split
        · exact Or.inl trivial
        · exact staysInside_readQuoted (state.push value) character

theorem State.Spells.read_large {state : State} {units : List UInt16} (spells : state.Spells units)
    {character : Char} (large : 0xFFFF < character.toNat) :
    state.read character = .error (.badEscape state.position) := by
  have noDigit : octalValue? character = none := by
    rw [octalValue?_eq, digitValue_beyond character (by omega), if_neg (by decide)]
  have noQuote : character ≠ '"' := by
    rintro rfl
    exact absurd large (by decide)
  have noBackslash : character ≠ '\\' := by
    rintro rfl
    exact absurd large (by decide)
  obtain ⟨settled, _, position, read⟩ := spells.read character noDigit
  rw [read, State.readQuoted, if_neg noQuote, if_neg noBackslash, if_neg (Nat.not_le.mpr large),
    position]

theorem State.readOutside_eq_error_iff (state : State) (character : Char) (fault : Fault) :
    state.readOutside character = .error fault ↔
      (character ≠ '"' ∧ character ≠ '+' ∧ isBlank character = false) ∧
        fault = .strayCharacter state.position := by
  rw [readOutside]
  by_cases quote : character = '"'
  · simp [quote]
  · rw [if_neg quote]
    by_cases gap : character = '+' ∨ isBlank character = true
    · rw [if_pos gap]
      simp only [reduceCtorEq, false_iff]
      rintro ⟨⟨_, noPlus, noBlank⟩, _⟩
      rcases gap with plus | blank
      · exact noPlus plus
      · rw [noBlank] at blank
        contradiction
    · rw [if_neg gap]
      obtain ⟨noPlus, noBlank⟩ := not_or.mp gap
      simp [quote, noPlus, noBlank, eq_comm]

theorem settled_of_readOutside {state next : State} {character : Char}
    (mode : state.mode = .outside) (read : state.readOutside character = .ok next) :
    Settled next.mode := by
  rw [State.readOutside] at read
  split at read
  · cases read
    trivial
  · split at read
    · cases read
      rw [mode]
      trivial
    · contradiction

theorem State.read_quote_iff (state : State) :
    (∃ next units, state.read '"' = .ok next ∧ next.finish = .ok units) ↔
      state.finish = .error .unterminated := by
  constructor
  · rintro ⟨next, units, reads, ends⟩
    rw [read] at reads
    rw [finish]
    cases mode : state.mode with
    | outside =>
        rw [mode] at reads
        cases reads
        contradiction
    | quoted => rfl
    | backslash start =>
        rw [mode] at reads
        contradiction
    | hex start digits value =>
        rw [mode] at reads
        contradiction
    | octal digits value => rfl
  · intro unclosed
    obtain ⟨units, spells⟩ := (finish_eq_unterminated_iff state).mp unclosed
    obtain ⟨next, reads, mode, _⟩ := spells.read_quote
    exact ⟨next, next.units.toList, reads, by rw [finish, mode]⟩

theorem settled_iff (state : State) :
    Settled state.mode ↔ state.mode = .outside ∨ ∃ units, state.Spells units := by
  cases mode : state.mode <;> simp [Settled, State.Spells, mode]

theorem State.read_ne_unterminated (state : State) (character : Char) :
    state.read character ≠ .error .unterminated := by
  intro fails
  by_cases settled : Settled state.mode
  · rcases (settled_iff state).mp settled with outside | ⟨units, spells⟩
    · simp only [read, outside, readOutside_eq_error_iff] at fails
      exact absurd fails.2 (by simp)
    · have stays := spells.staysInside character
      rw [fails] at stays
      exact absurd stays.1 (by simp)
  · cases mode : state.mode with
    | backslash start =>
        simp only [read, mode] at fails
        have continues := continues_backslash state start character
        rw [fails] at continues
        exact absurd continues.1 (by simp)
    | hex start digits value =>
        simp only [read, mode, readHex] at fails
        split at fails
        · simp at fails
        · split at fails <;> contradiction
    | _ =>
        rw [mode] at settled
        exact absurd trivial settled

inductive Traced (text : List Char) (mode : Mode) : Prop
  | settled (settled : Settled mode)
  | middle (earlier begun : List Char)
      (middle : Middle mode (String.ofList earlier).utf8ByteSize begun)
      (text : text = earlier ++ '\\' :: begun)
      (unclosed : units (String.ofList earlier) = .error .unterminated)

theorem position_of_run {text : List Char} {state : State} (reads : run {} text = .ok state) :
    (String.ofList text).utf8ByteSize = state.position :=
  ((position_run {} state text reads).trans (Nat.zero_add _)).symm

theorem cut_ofList (before after : List Char) (character : Char) :
    Cut (String.ofList (before ++ character :: after)) (String.ofList before).utf8ByteSize
      (String.ofList before) character after :=
  ⟨by simp, rfl⟩

def Accounted (text : List Char) (character : Char) : Except Fault State → Prop
  | .ok next => Traced (text ++ [character]) next.mode
  | .error fault => ∀ after, Blames (String.ofList (text ++ character :: after)) fault

theorem accounted_middle {earlier begun : List Char} {state : State}
    (middle : Middle state.mode (String.ofList earlier).utf8ByteSize begun)
    (unclosed : units (String.ofList earlier) = .error .unterminated) (character : Char) :
    Accounted (earlier ++ '\\' :: begun) character (state.read character) := by
  have continues := middle.continues character
  cases read : state.read character with
  | ok next =>
      rw [read] at continues
      rcases continues with more | ⟨settled, _⟩
      · exact .middle earlier (begun ++ [character]) more (by simp) unclosed
      · exact .settled settled
  | error fault =>
      -- The escape is blamed where it began, which the reader was told back then.
      rw [read] at continues
      obtain ⟨rfl, never⟩ := continues
      intro after
      refine ⟨String.ofList earlier, '\\', begun ++ character :: after, ?_, unclosed,
        Or.inl ⟨rfl, never after⟩⟩
      simpa using cut_ofList earlier (begun ++ character :: after) '\\'

theorem accounted_outside {text : List Char} {state : State} (reads : run {} text = .ok state)
    (outside : state.mode = .outside) (character : Char) :
    Accounted text character (state.read character) := by
  have same : state.read character = state.readOutside character := by
    rw [State.read, outside]
  rw [same]
  cases read : state.readOutside character with
  | ok next => exact .settled (settled_of_readOutside outside read)
  | error fault =>
      obtain ⟨stray, rfl⟩ := (state.readOutside_eq_error_iff character fault).mp read
      rw [← position_of_run reads]
      intro after
      refine ⟨_, _, _, cut_ofList text after character, ⟨state.units.toList, ?_⟩, stray⟩
      rw [units_ofList, reads]
      exact (State.finish_eq_ok_iff_between state _).mpr ⟨outside, rfl⟩

theorem accounted_quoted {text : List Char} {state : State} {spelled : List UInt16}
    (reads : run {} text = .ok state) (spells : state.Spells spelled) (character : Char) :
    Accounted text character (state.read character) := by
  have position := position_of_run reads
  -- All of the text is fine but for the quote that is still to come.
  have unclosed : units (String.ofList text) = .error .unterminated := by
    rw [units_ofList, reads]
    exact state.finish_eq_unterminated_iff.mpr ⟨_, spells⟩
  have stays := spells.staysInside character
  cases read : state.read character with
  | ok next =>
      rw [read] at stays
      rcases stays with settled | ⟨rfl, mode⟩
      · exact .settled settled
      · refine .middle text [] ?_ rfl unclosed
        rw [mode, position]
        exact .backslash _
  | error fault =>
      rw [read] at stays
      obtain ⟨rfl, large⟩ := stays
      rw [← position]
      exact fun after => ⟨_, _, _, cut_ofList text after character, unclosed, Or.inr large⟩

theorem Traced.read {text : List Char} {state : State} (reads : run {} text = .ok state)
    (traced : Traced text state.mode) (character : Char) :
    Accounted text character (state.read character) := by
  cases traced with
  | middle earlier begun middle split unclosed =>
      subst split
      exact accounted_middle middle unclosed character
  | settled settled =>
      rcases (settled_iff state).mp settled with outside | ⟨spelled, spells⟩
      · exact accounted_outside reads outside character
      · exact accounted_quoted reads spells character

theorem units_append_quote_iff {text : String} {state : State}
    (reads : run {} text.toList = .ok state) :
    (∃ read, units (text ++ "\"") = .ok read) ↔ state.finish = .error .unterminated := by
  have quote : "\"".toList = ['"'] := by decide
  rw [← state.read_quote_iff, exists_comm]
  refine exists_congr fun read => ?_
  rw [units, String.toList_append, quote, run_append, reads]
  change run state ['"'] >>= State.finish = .ok read ↔ _
  rw [run, List.foldlM_cons, State.step]
  cases state.read '"' with
  | error fault =>
      constructor
      · intro ends
        contradiction
      · rintro ⟨next, same, _⟩
        contradiction
  | ok next =>
      constructor
      · intro ends
        exact ⟨next, rfl, ends⟩
      · rintro ⟨_, same, ends⟩
        cases same
        exact ends

theorem Traced.finish {text : List Char} {state : State} (reads : run {} text = .ok state)
    (traced : Traced text state.mode) (fault : Fault) (fails : state.finish = .error fault) :
    Blames (String.ofList text) fault := by
  cases traced with
  | settled settled =>
      rcases (settled_iff state).mp settled with outside | ⟨spelled, spells⟩
      · rw [State.finish, outside] at fails
        contradiction
      · have unclosed := state.finish_eq_unterminated_iff.mpr ⟨spelled, spells⟩
        cases fails.symm.trans unclosed
        refine (units_append_quote_iff ?_).mpr unclosed
        rw [String.toList_ofList, reads]
  | middle earlier begun middle split unclosed =>
      obtain ⟨bad, never⟩ := middle.finish
      cases fails.symm.trans bad
      refine ⟨String.ofList earlier, '\\', begun, ?_, unclosed, Or.inl ⟨rfl, never⟩⟩
      rw [split]
      exact cut_ofList earlier begun '\\'

theorem run_append_singleton {text : List Char} {state next : State} {character : Char}
    (reads : run {} text = .ok state) (read : state.read character = .ok next) :
    run {} (text ++ [character]) = .ok (next.advance character) := by
  rw [run_append, reads]
  exact run_cons read []

theorem Traced.run {text later : List Char} {state : State} (reads : run {} text = .ok state)
    (traced : Traced text state.mode) (fault : Fault)
    (fails : Reader.run state later >>= State.finish = .error fault) :
    Blames (String.ofList (text ++ later)) fault := by
  induction later generalizing text state with
  | nil =>
      rw [List.append_nil]
      exact traced.finish reads fault fails
  | cons character later ih =>
      have step := traced.read reads character
      cases read : state.read character with
      | error other =>
          rw [Reader.run, List.foldlM_cons, State.step, read] at fails
          cases fails
          rw [read] at step
          exact step later
      | ok next =>
          rw [run_cons read] at fails
          rw [List.append_cons]
          rw [read] at step
          exact ih (run_append_singleton reads read) step fails

theorem Middle.run {state : State} {start : Nat} {begun : List Char}
    (middle : Middle state.mode start begun) (later : List Char)
    (never : ¬ OpensEscape (begun ++ later)) :
    Reader.run state later >>= State.finish = .error (.badEscape start) := by
  induction later generalizing state begun with
  | nil => exact middle.finish.1
  | cons character later ih =>
      have continues := middle.continues character
      cases read : state.read character with
      | error fault =>
          rw [read] at continues
          rw [Reader.run, List.foldlM_cons, State.step, read, continues.1]
          rfl
      | ok next =>
          rw [read] at continues
          rw [run_cons read]
          rcases continues with more | ⟨_, opens⟩
          · rw [List.append_cons] at never
            exact ih more never
          · exact absurd (opens later) never

theorem run_ne_unterminated (state : State) (characters : List Char) :
    Reader.run state characters ≠ .error .unterminated := by
  induction characters generalizing state with
  | nil =>
      intro fails
      cases fails
  | cons character characters ih =>
      cases read : state.read character with
      | error fault =>
          intro fails
          rw [Reader.run, List.foldlM_cons, State.step, read] at fails
          cases fails
          exact state.read_ne_unterminated character read
      | ok next =>
          rw [run_cons read]
          exact ih (next.advance character)

theorem run_of_unterminated {text : String} (unclosed : units text = .error .unterminated) :
    ∃ state, Reader.run {} text.toList = .ok state ∧ state.position = text.utf8ByteSize ∧
      state.finish = .error .unterminated := by
  rcases (bind_eq_error_iff _ _ _).mp unclosed with fails | ⟨state, reads, ends⟩
  · exact absurd fails (run_ne_unterminated {} text.toList)
  · have position := position_of_run reads
    rw [String.ofList_toList] at position
    exact ⟨state, reads, position.symm, ends⟩

theorem run_eq_error {state : State} {character : Char} {fault : Fault}
    (refused : state.read character = .error fault) (later : List Char) :
    Reader.run state (character :: later) = .error fault := by
  rw [Reader.run, List.foldlM_cons, State.step, refused]
  rfl

end Reader

theorem blames_of_error {text : String} {fault : Fault} (fails : units text = .error fault) :
    Blames text fault := by
  have begins : Reader.Traced [] ({} : Reader.State).mode := .settled trivial
  have blames := begins.run rfl fault fails
  rwa [List.nil_append, String.ofList_toList] at blames

theorem Cut.units_eq {text before : String} {position : Nat} {character : Char} {after : List Char}
    (cut : Cut text position before character after) {state : Reader.State}
    (reads : Reader.run {} before.toList = .ok state) :
    units text = Reader.run state (character :: after) >>= Reader.State.finish := by
  rw [units, cut.text, Reader.run_append, reads]
  rfl

theorem error_of_blames {text : String} {fault : Fault} (blames : Blames text fault) :
    units text = .error fault := by
  cases fault with
  | strayCharacter position =>
      obtain ⟨before, character, after, cut, ⟨read, ends⟩, stray⟩ := blames
      have refused : (Reader.State.after {} before.utf8ByteSize read.toArray).read character =
          .error (.strayCharacter before.utf8ByteSize) :=
        (Reader.State.readOutside_eq_error_iff _ character _).mpr ⟨stray, rfl⟩
      rw [cut.units_eq (Reader.run_of_units ends), Reader.run_eq_error refused, ← cut.position]
      rfl
  | unterminated =>
      obtain ⟨read, ends⟩ := blames
      have whole := ends
      rw [units, String.toList_append, Reader.run_append] at whole
      obtain ⟨_, prolonged, _⟩ := (bind_eq_ok_iff _ _ _).mp whole
      obtain ⟨state, reads, _⟩ := (bind_eq_ok_iff _ _ _).mp prolonged
      rw [units, reads]
      exact (Reader.units_append_quote_iff reads).mp ⟨read, ends⟩
  | badEscape position =>
      obtain ⟨before, character, after, cut, unclosed, bad⟩ := blames
      obtain ⟨state, reads, behind, ends⟩ := Reader.run_of_unterminated unclosed
      obtain ⟨spelled, spells⟩ := state.finish_eq_unterminated_iff.mp ends
      rw [cut.units_eq reads, ← cut.position, ← behind]
      rcases bad with ⟨rfl, never⟩ | large
      · obtain ⟨next, read, mode, _⟩ := spells.read_backslash
        rw [Reader.run_cons read]
        have middle : Reader.Middle (next.advance '\\').mode state.position [] :=
          mode ▸ .backslash state.position
        exact middle.run after never
      · rw [Reader.run_eq_error (spells.read_large large)]
        rfl
  | oddUnits => exact blames.elim
  | emptyRun pair => exact blames.elim
  | overflow declared => exact blames.elim
  | short decoded declared => exact blames.elim

/-- A text is refused with a fault exactly if what the fault says of the text is so. -/
theorem units_eq_error_iff_blames (text : String) (fault : Fault) :
    units text = .error fault ↔ Blames text fault :=
  ⟨blames_of_error, error_of_blames⟩

end Multistage.Literal
