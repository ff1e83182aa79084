import Mathlib.Data.List.Nodup
import Multistage.Proofs.Literal.RoundTrip
import Multistage.Proofs.Outcome
import Multistage.Proofs.Stage
import Multistage.Proofs.Words

/-!
Written tables read back: an index gives its entries where the stage stores them, the final table
its classes or the words that hold them, each under its own name.
-/

namespace Multistage

namespace Listing

def spelling (name : String) (values : List UInt16) : Listing :=
  { name, length := values.length, literal := .ofValues values }

theorem register_eq_moved (stage : Stage) (entry : Nat)
    (contained : stage.moved entry < 2 ^ 64) : register stage entry = stage.moved entry := by
  rw [register, Nat.shiftLeft_eq]
  exact Nat.mod_eq_of_lt contained

def indexValues (stage : Stage) (entries : Table) : List UInt16 :=
  if 16 < 8 * stage.entryBytes then (entries.map (register stage)).flatMap halves
  else (entries.map (register stage)).map Nat.toUInt16

def storedClasses (width : ClassWidth) (classes : Table) : List Nat :=
  if width.isPacked then unitWords width classes else classes

def classValues (width : ClassWidth) (classes : Table) : List UInt16 :=
  if width.isPacked then (unitWords width classes).flatMap halves else classes.map Nat.toUInt16

theorem ofIndex_eq_ok_iff (name : String) (entries : Table) (stage : Stage) (listing : Listing) :
    ofIndex name entries stage = .ok listing ↔
      (∀ entry ∈ entries, register stage entry < 2 ^ (8 * stage.entryBytes)) ∧
        listing = spelling name (indexValues stage entries) := by
  have fits : ((entries.map (register stage)).find? fun entry =>
      entry >>> (8 * stage.entryBytes) != 0) = none ↔
        ∀ entry ∈ entries, register stage entry < 2 ^ (8 * stage.entryBytes) := by
    simp [Nat.shiftRight_eq_div_pow]
  rw [ofIndex, ← fits]
  cases (entries.map (register stage)).find? fun entry => entry >>> (8 * stage.entryBytes) != 0 with
  | some entry => simp
  | none =>
      by_cases wide : 16 < 8 * stage.entryBytes
      · have length := length_flatMap_halves (entries.map (register stage))
        simp only [wide, if_true, spelling, indexValues, length, List.length_map, true_and,
          Except.ok.injEq, eq_comm]
      · simp [wide, spelling, indexValues, eq_comm]

theorem ofClasses_eq_ok_iff (name : String) (classes : Table) (width : ClassWidth)
    (listing : Listing) :
    ofClasses name classes width = .ok listing ↔
      (∀ value ∈ classes, value ≤ width.max) ∧
        listing = spelling name (classValues width classes) := by
  have fits : (classes.find? fun value => width.max < value) = none ↔
      ∀ value ∈ classes, value ≤ width.max := by
    simp
  rw [ofClasses, ← fits]
  cases classes.find? fun value => width.max < value with
  | some value => simp
  | none =>
      by_cases packed : width.isPacked = true
      · have length := length_flatMap_halves (unitWords width classes)
        simp only [packed, if_true, spelling, classValues, length, true_and, Except.ok.injEq,
          eq_comm]
      · simp [packed, spelling, classValues, eq_comm]

theorem ofClasses_eq_error_iff (name : String) (classes : Table) (width : ClassWidth)
    (fault : Fault) :
    ofClasses name classes width = .error fault ↔
      ∃ value, (classes.find? fun value => width.max < value) = some value ∧
        fault = .entryTooBig name value width.bits := by
  rw [ofClasses]
  cases classes.find? fun value => width.max < value with
  | some value => simp [eq_comm]
  | none => by_cases packed : width.isPacked = true <;> simp [packed]

theorem zip_eq_nil {tables : List Table} {stages : List Stage}
    (ended : ∀ entries later stage finer, tables = entries :: later → stages = stage :: finer →
      False) : tables.zip stages = [] := by
  cases tables with
  | nil => rfl
  | cons entries later =>
      cases stages with
      | nil => rfl
      | cons stage finer => exact (ended entries later stage finer rfl rfl).elim

theorem ofIndices_eq_ok_iff (depth : Nat) (tables : List Table) (stages : List Stage)
    (indices : List Listing) :
    ofIndices depth tables stages = .ok indices ↔
      (∀ pair ∈ tables.zip stages, ∀ entry ∈ pair.1,
        register pair.2 entry < 2 ^ (8 * pair.2.entryBytes)) ∧
      indices = ((tables.zip stages).zipIdx depth).map fun ((entries, stage), place) =>
        spelling (indexName place) (indexValues stage entries) := by
  fun_induction ofIndices depth tables stages generalizing indices with
  | case1 depth entries tables stage stages ih =>
      simp only [bind_eq_ok_iff, pure_eq_ok_iff, ofIndex_eq_ok_iff, ih, List.zip_cons_cons,
        List.forall_mem_cons, List.zipIdx_cons, List.map_cons]
      constructor
      · rintro ⟨_, ⟨fits, rfl⟩, _, ⟨laterFit, rfl⟩, rfl⟩
        exact ⟨⟨fits, laterFit⟩, rfl⟩
      · rintro ⟨⟨fits, laterFit⟩, rfl⟩
        exact ⟨_, ⟨fits, rfl⟩, _, ⟨laterFit, rfl⟩, rfl⟩
  | case2 tables depth stages ended =>
      simp [zip_eq_nil ended, eq_comm]

theorem ofLayout_eq_ok_iff (layout : Layout) (table : String) (listings : List Listing)
    (nonempty : layout.tables ≠ []) :
    ofLayout layout table = .ok listings ↔
      layout.tables.length ≤ mostStages ∧ ∃ indices last,
        ofIndices 0 layout.tables.dropLast layout.stages = .ok indices ∧
        ofClasses table (layout.tables.getLast nonempty) layout.width = .ok last ∧
        listings = indices ++ [last] := by
  have finest := List.getLast?_eq_some_getLast nonempty
  rw [ofLayout, finest]
  by_cases many : mostStages < layout.tables.length
  · simp [many, Nat.not_le.mpr many]
  · simp only [many, if_false, Nat.le_of_not_lt many, true_and, bind_eq_ok_iff, pure_eq_ok_iff]
    constructor
    · rintro ⟨indices, written, last, lastWritten, rfl⟩
      exact ⟨indices, last, written, lastWritten, rfl⟩
    · rintro ⟨indices, last, written, lastWritten, rfl⟩
      exact ⟨indices, written, last, lastWritten, rfl⟩

theorem ofLayout_eq_map (layout : Layout) (table : String) (nonempty : layout.tables ≠ [])
    (few : layout.tables.length ≤ mostStages) (indices : List Listing)
    (written : ofIndices 0 layout.tables.dropLast layout.stages = .ok indices) :
    ofLayout layout table =
      (ofClasses table (layout.tables.getLast nonempty) layout.width).map
        fun last => indices ++ [last] := by
  rw [ofLayout, if_neg (Nat.not_lt.mpr few), List.getLast?_eq_some_getLast nonempty]
  simp only [written, bind, Except.bind]
  cases ofClasses table (layout.tables.getLast nonempty) layout.width <;> rfl

end Listing

namespace Decoded

open Listing

theorem read_spelling (name : String) (values : List UInt16) (wide : Bool) :
    read (spelling name values) wide = .ok (name, entries wide values) := by
  simp only [read, spelling, Literal.decode_ofValues]

def Readable (stage : Stage) : Prop :=
  stage.entryBytes = 0 ∨ stage.entryBytes = 1 ∨ stage.entryBytes = 2 ∨ stage.entryBytes = 4

instance (stage : Stage) : Decidable (Readable stage) :=
  inferInstanceAs (Decidable (_ ∨ _))

theorem entries_of_le_four (stage : Stage) (table : Table) (narrow : stage.entryBytes ≤ 4)
    (fits : ∀ entry ∈ table, register stage entry < 2 ^ (8 * stage.entryBytes)) :
    entries (16 < 8 * stage.entryBytes) (indexValues stage table) =
      (table.map (register stage)).toArray := by
  -- Two values hold 32 bits, so no more than four bytes of an entry are written.
  have bound (bits : Nat) (atMost : 8 * stage.entryBytes ≤ bits) :
      ∀ number ∈ table.map (register stage), number < 2 ^ bits := by
    intro number member
    obtain ⟨entry, present, rfl⟩ := List.mem_map.mp member
    exact Nat.lt_of_lt_of_le (fits entry present) (Nat.pow_le_pow_right (by omega) atMost)
  by_cases wide : 16 < 8 * stage.entryBytes
  · simp [entries, indexValues, wide, joinOnto_halves _ _ (bound 32 (by omega))]
  · rw [entries, indexValues, if_neg wide, map_toNat_toUInt16 _ (bound 16 (by omega))]
    simp [wide]

theorem entries_indexValues (stage : Stage) (table : Table) (readable : Readable stage)
    (fits : ∀ entry ∈ table, register stage entry < 2 ^ (8 * stage.entryBytes)) :
    entries (stage.entryBytes == 4) (indexValues stage table) =
      (table.map (register stage)).toArray := by
  have wide : (stage.entryBytes == 4) = decide (16 < 8 * stage.entryBytes) := by
    rw [Bool.eq_iff_iff, beq_iff_eq, decide_eq_true_iff]
    rcases readable with none | one | two | four <;> omega
  rw [wide]
  exact entries_of_le_four stage table (by rcases readable with _ | _ | _ | _ <;> omega) fits

theorem entries_classValues (width : ClassWidth) (classes : Table)
    (fits : ∀ value ∈ classes, value ≤ width.max) :
    entries width.isPacked (classValues width classes) =
      (storedClasses width classes).toArray := by
  cases packed : width.isPacked with
  | true =>
      simp [entries, classValues, storedClasses, packed,
        joinOnto_halves _ _ (unitWords_lt width classes fits)]
  | false =>
      have bound : ∀ value ∈ classes, value < 2 ^ 16 := by
        intro value member
        have bits : width.bits ≤ 16 := by cases width <;> decide
        exact Nat.lt_of_lt_of_le (lt_two_pow_bits width value (fits value member))
          (Nat.pow_le_pow_right (by omega) bits)
      simp only [entries, classValues, storedClasses, packed, Bool.false_eq_true, if_false,
        map_toNat_toUInt16 classes bound]

def wideAt (width : ClassWidth) (stages : List Stage) (count place : Nat) : Bool :=
  if place + 1 = count then width.isPacked
  else stages[place]?.any fun stage => stage.entryBytes == 4

theorem wideAt_succ (width : ClassWidth) (stages : List Stage) (count place : Nat) :
    wideAt width stages (count + 1) (place + 1) = wideAt width stages.tail count place := by
  simp [wideAt]

theorem readOnto_cons (width : ClassWidth) (tables : List (String × Array Nat))
    (listing : Listing) (listings : List Listing) (stages : List Stage) :
    readOnto width tables (listing :: listings) stages =
      read listing (wideAt width stages (listings.length + 1) 0) >>= fun table =>
        readOnto width (table :: tables) listings stages.tail := by
  cases listings with
  | nil => rfl
  | cons next listings => cases stages <;> rfl

/-- What is found under the names of written tables, the one for stage `depth` first. -/
def contents (table : String) (width : ClassWidth) (depth : Nat) :
    List Table → List Stage → List (String × Array Nat)
  | entries :: next :: tables, stage :: stages =>
      (indexName depth, (entries.map (register stage)).toArray) ::
        contents table width (depth + 1) (next :: tables) stages
  | [classes], _ => [(table, (storedClasses width classes).toArray)]
  | _, _ => []

def Staged : List Table → List Stage → Prop
  | _ :: next :: tables, stage :: stages => Readable stage ∧ Staged (next :: tables) stages
  | [_], _ => True
  | _, _ => False

theorem readOnto_indices (table : String) (width : ClassWidth) (depth : Nat)
    (tables : List Table) (stages : List Stage) (before : List (String × Array Nat))
    (classes : Table) (indices : List Listing) (last : Listing) (staged : Staged tables stages)
    (finest : tables.getLast? = some classes)
    (written : ofIndices depth tables.dropLast stages = .ok indices)
    (lastWritten : ofClasses table classes width = .ok last) :
    readOnto width before (indices ++ [last]) stages =
      .ok ((contents table width depth tables stages).reverse ++ before) := by
  induction tables generalizing depth stages before indices with
  | nil => simp at finest
  | cons entries tables ih =>
      cases tables with
      | nil =>
          obtain rfl : entries = classes := by simpa using finest
          obtain rfl : indices = [] := by simpa [ofIndices, eq_comm] using written
          obtain ⟨fits, rfl⟩ := (ofClasses_eq_ok_iff _ _ _ _).mp lastWritten
          rw [List.nil_append, readOnto, read_spelling, entries_classValues width entries fits]
          rfl
      | cons next tables =>
          cases stages with
          | nil => exact staged.elim
          | cons stage stages =>
              obtain ⟨readable, rest⟩ := staged
              rw [List.dropLast_cons_of_ne_nil (List.cons_ne_nil _ _)] at written
              simp only [ofIndices, bind_eq_ok_iff, pure_eq_ok_iff] at written
              obtain ⟨listing, entriesWritten, later, laterWritten, rfl⟩ := written
              obtain ⟨fits, rfl⟩ := (ofIndex_eq_ok_iff _ _ _ _).mp entriesWritten
              have wide : wideAt width (stage :: stages) ((later ++ [last]).length + 1) 0 =
                  (stage.entryBytes == 4) := by
                simp [wideAt]
              rw [List.cons_append, readOnto_cons, wide, read_spelling,
                entries_indexValues stage entries readable fits]
              refine (ih (depth + 1) stages _ later rest finest laterWritten).trans ?_
              simp [contents]

theorem map_fst_contents (table : String) (width : ClassWidth) (depth : Nat) (tables : List Table)
    (stages : List Stage) (staged : Staged tables stages) :
    (contents table width depth tables stages).map Prod.fst =
      (List.range' depth (tables.length - 1)).map indexName ++ [table] := by
  induction tables generalizing depth stages with
  | nil => exact staged.elim
  | cons entries tables ih =>
      cases tables with
      | nil => simp [contents]
      | cons next tables =>
          cases stages with
          | nil => exact staged.elim
          | cons stage stages =>
              have later := ih (depth + 1) stages staged.2
              simp only [List.length_cons, Nat.add_sub_cancel] at later ⊢
              rw [contents, List.map_cons, later, List.range'_succ, List.map_cons, List.cons_append]

theorem letter_injective : ∀ first < 26, ∀ second < 26,
    Char.ofNat ('Z'.toNat - first) = Char.ofNat ('Z'.toNat - second) → first = second := by
  decide

theorem indexName_injective (first second : Nat) (firstBound : first < 26)
    (secondBound : second < 26) (same : indexName first = indexName second) : first = second := by
  apply letter_injective first firstBound second secondBound
  have letters := congrArg String.toList same
  simpa [indexName] using letters

def Distinct (table : String) (count : Nat) : Prop :=
  ∀ stage < count - 1, table ≠ indexName stage

theorem nodup_names (table : String) (count : Nat) (few : count ≤ mostStages)
    (distinct : Distinct table count) :
    ((List.range' 0 (count - 1)).map indexName ++ [table]).Nodup := by
  rw [mostStages] at few
  rw [List.nodup_append]
  refine ⟨?_, by simp, ?_⟩
  · refine List.Nodup.map_on ?_ List.nodup_range'
    intro first firstMember second secondMember same
    rw [List.mem_range'_1] at firstMember secondMember
    exact indexName_injective first second (by omega) (by omega) same
  · intro name member other single same
    obtain ⟨stage, range, rfl⟩ := List.mem_map.mp member
    rw [List.mem_range'_1] at range
    rw [List.mem_singleton.mp single] at same
    exact distinct stage (by omega) same.symm

theorem lookup_of_mem {α : Type} (pairs : List (String × α)) (name : String) (value : α)
    (nodup : (pairs.map Prod.fst).Nodup) (member : (name, value) ∈ pairs) :
    pairs.lookup name = some value := by
  obtain ⟨before, after, rfl⟩ := List.append_of_mem member
  rw [List.lookup_eq_some_iff]
  refine ⟨before, after, rfl, ?_⟩
  intro pair earlier
  rw [List.map_append, List.nodup_append] at nodup
  simpa using (nodup.2.2 pair.1 (List.mem_map_of_mem earlier) name (by simp)).symm

theorem ofBundle_eq_ok (bundle : Bundle) (layout : Layout) (table : String)
    (nonempty : layout.tables ≠ []) (staged : Staged layout.tables layout.stages)
    (written : Listing.ofLayout layout table = .ok bundle.listings)
    (stages : bundle.stages = layout.stages) (width : bundle.width = layout.width) :
    ofBundle bundle = .ok
      { tables := (contents table layout.width 0 layout.tables layout.stages).reverse
        formula := bundle.formula } := by
  obtain ⟨_, indices, last, indicesWritten, lastWritten, listings⟩ :=
    (ofLayout_eq_ok_iff _ _ _ nonempty).mp written
  have finest := List.getLast?_eq_some_getLast nonempty
  have read := readOnto_indices table layout.width 0 layout.tables layout.stages [] _ indices last
    staged finest indicesWritten lastWritten
  rw [ofBundle, listings, stages, width, read, List.append_nil]
  rfl

theorem exists_ofBundle (bundle : Bundle) (layout : Layout) (table : String)
    (nonempty : layout.tables ≠ []) (staged : Staged layout.tables layout.stages)
    (written : Listing.ofLayout layout table = .ok bundle.listings)
    (stages : bundle.stages = layout.stages) (width : bundle.width = layout.width)
    (distinct : Distinct table layout.tables.length) :
    ∃ decoded, ofBundle bundle = .ok decoded ∧ decoded.formula = bundle.formula ∧
      ∀ name entries, (name, entries) ∈ contents table layout.width 0 layout.tables layout.stages →
        decoded.table? name = some entries := by
  obtain ⟨few, _⟩ := (ofLayout_eq_ok_iff _ _ _ nonempty).mp written
  refine ⟨_, ofBundle_eq_ok bundle layout table nonempty staged written stages width, rfl, ?_⟩
  intro name entries member
  apply lookup_of_mem
  · rw [List.map_reverse, List.nodup_reverse, map_fst_contents _ _ _ _ _ staged]
    exact nodup_names table _ few distinct
  · rw [List.mem_reverse]
    exact member

end Decoded

end Multistage
