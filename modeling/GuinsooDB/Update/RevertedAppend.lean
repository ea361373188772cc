import GuinsooDB.Storage.ColumnReadBack
import GuinsooDB.Update.FetchRow
import GuinsooDB.Update.OwnRollback

/-!
A transaction appends rows to a column, updates some of them and is rolled back; then rows are
appended at the same place again. `RevertAppend` cuts the segments and the update segments, but
the base nodes of the update segment that stays keep what the rollback has put into them.
-/

namespace GuinsooDB

open SortedEntries SnapshotLedger UndoChain Transition List Option UpdateNodeData ColumnCells

variable {D : Type}

def ColumnData.reachesBehind (column : ColumnData) (startRow : Nat) : Bool :=
  column.data.getLast?.any fun last => startRow < last.start + last.count

namespace ColumnCells

/-- `StandardColumnData::RevertAppend`. The validity bits behind the row are set again, in the
segment that is cut and in those that are created later. -/
def revertAppend (column : ColumnCells D) (startRow : Nat) : Option (ColumnCells D) :=
  (column.layout.column.revertAppend startRow).bind fun data =>
    (column.layout.validity.revertAppend startRow).map fun validity =>
      { layout := { column := data, validity }
        cells := column.cells
        mask := fun row =>
          (column.layout.validity.reachesBehind startRow && decide (startRow ≤ row)) ||
            column.mask row }

end ColumnCells

structure UpdatedColumn (D : Type) where
  column : ColumnCells D
  database : Database D morselKind

namespace UpdatedColumn

variable (state : UpdatedColumn D)

def columnData : SegmentKind → ColumnData
  | .validity => state.column.layout.validity
  | .data => state.column.layout.column

variable (startRow : Nat)

def erases (key : MorselKey) : Bool :=
  (state.columnData key.1).reachesBehind startRow &&
    (findMorsel (state.columnData key.1) startRow).any fun last => last < key.2

def revertAppend : Option (UpdatedColumn D) :=
  (state.column.revertAppend startRow).map fun column =>
    { column
      database := { state.database with
        segments := fun key =>
          if state.erases startRow key then .create (morselStart key)
          else state.database.segments key } }

/-- A transaction appends vectors at the row, updates and is rolled back. -/
def appendRolledBack (kind : ColumnKind) (length : D → Nat) (state : UpdatedColumn D)
    (startRow : Nat) (transaction : Transaction) (appends : List (List (Option D)))
    (changes : List (SegmentUpdate D MorselKey)) : Option (UpdatedColumn D) :=
  let appended := run (ColumnCells.append kind length) state.column appends
  revertAppend
    { column := appended
      database := state.database.updatedAndRolledBack appended.vectorBase transaction changes }
    startRow

/-- A scan and the fetch of a row read the vectors that are appended afterwards. -/
def LeavesNoTrace (kind : ColumnKind) (length : D → Nat) (state : UpdatedColumn D) (startRow : Nat)
    (transaction : Transaction) (appends : List (List (Option D)))
    (changes : List (SegmentUpdate D MorselKey)) (later : List (List (Option D)))
    (reader : Transaction) : Prop :=
  ∃ reverted, state.appendRolledBack kind length startRow transaction appends changes =
      some reverted ∧
    let final := run (ColumnCells.append kind length) reverted.column later
    (∃ rows, final.scanUpdated reverted.database reader (startRow + later.flatten.length) =
        some rows ∧ rows.drop startRow = later.flatten) ∧
      ∀ position < later.flatten.length,
        final.fetchUpdated reverted.database reader (startRow + position) = later.flatten[position]?

/-- A column before the append: nothing of the transaction is in the chains, and the undo nodes
are of rows of the column. -/
structure Settled (kind : ColumnKind) (state : UpdatedColumn D) (count : RowCount)
    (transaction : Transaction) : Prop where
  laid : ColumnCells.Laid kind state.column count
  starting : Database.StartsAt morselStart state.database.segments
  unwritten : Database.Unwritten transaction.transactionId state.database
  undoRows : ∀ key vectorIndex, ∀ info ∈ undoNodes ((state.database.segments key).info vectorIndex),
      ∀ slot ∈ keys info.tuples,
        morselStart key + vectorIndex * standardVectorSize + slot < count.rows

variable (transaction : Transaction) (appended : ColumnCells D)

/-- What the base nodes still say about a row after the rollback: what they said before, or else
what the transaction had appended there when it has touched the row. -/
def stale (changes : List (SegmentUpdate D MorselKey)) (kind : SegmentKind) (row : Nat) :
    Option (Stored D kind) :=
  let place := ColumnCells.updatePlace kind row
  if row / morselSize = startRow / morselSize then
    (baseEntry ((state.database.segments place.1).info place.2.1) place.2.2).or
      (if state.database.touched appended.vectorBase transaction changes place then
        some (baseValue morselKind appended.vectorBase place)
      else none)
  else none

def staleBit (changes : List (SegmentUpdate D MorselKey)) (row : Nat) : Option Bool :=
  state.stale startRow transaction appended changes .validity row

def staleValue (changes : List (SegmentUpdate D MorselKey)) (row : Nat) : Option D :=
  state.stale startRow transaction appended changes .data row

/-- The stale entries of a row do not change how a new value reads. -/
structure Harmless (staleBit : Option Bool) (staleValue : Option D) (row : Nat) (bit : Bool)
    (value : Option D) : Prop where
  nullness : staleBit.getD bit = value.isSome
  values : ∀ stored new, staleValue = some stored → value = some new → stored = new
  fetched : morselSize ≤ row → bit = value.isSome

end UpdatedColumn

/-! Cutting a column -/

namespace ColumnData

variable {kind : ColumnKind} {column reverted : ColumnData} {rows persisted startRow : Nat}

theorem Aligned.reachesBehind (aligned : Aligned kind column rows persisted)
    (inside : startRow < rows) : column.reachesBehind startRow = true := by
  rcases eq_nil_or_concat' column.data with none | ⟨front, last, split⟩
  · have stops := aligned.dataRows
    rw [none, Extents.stop] at stops
    omega
  have tiled := aligned.data
  have stops := aligned.dataRows
  rw [split] at tiled stops
  rw [Extents.stop_concat tiled.contiguous] at stops
  rw [ColumnData.reachesBehind, split, getLast?_concat, any_some, stops]
  exact decide_eq_true inside

theorem revertAppend_segments (cut : column.revertAppend startRow = some reverted) :
    ∀ segment ∈ reverted.data, ∃ old ∈ column.data,
      segment.start = old.start ∧ segment.maxVectorCount = old.maxVectorCount := by
  rw [revertAppend] at cut
  split at cut
  · cases cut
  split at cut
  · cases cut
    exact fun segment inside => ⟨segment, inside, rfl, rfl⟩
  obtain ⟨segmentIndex, -, cut⟩ := bind_eq_some_iff.mp cut
  obtain ⟨found, here, cut⟩ := bind_eq_some_iff.mp cut
  split at cut
  · cases cut
  obtain ⟨updateIndex, -, cut⟩ := bind_eq_some_iff.mp cut
  obtain ⟨morsel, -, cut⟩ := map_eq_some_iff.mp cut
  subst reverted
  intro segment inside
  rcases mem_append.mp inside with front | last
  · exact ⟨segment, mem_of_mem_take front, rfl, rfl⟩
  · rw [mem_singleton.mp last]
    exact ⟨found, mem_of_getElem? here, rfl, rfl⟩

end ColumnData

namespace ColumnCells

variable {kind : ColumnKind} {column : ColumnCells D} {rows persisted startRow : Nat}

/-- After `RevertAppend` the column ends at the row, with all validity bits behind it set. -/
theorem Laid.revertAppend (laid : Laid kind column { rows, persisted })
    (appended : persisted ≤ startRow) (inside : startRow < rows) :
    ∃ reverted, column.revertAppend startRow = some reverted ∧ Laid kind reverted { rows := startRow, persisted } := by
  have nonempty : ∀ {dataKind : ColumnKind} {data : ColumnData},
      data.Aligned dataKind rows persisted → data.data ≠ [] := by
    intro dataKind data aligned none
    have stops := aligned.dataRows
    rw [none, Extents.stop] at stops
    omega
  obtain ⟨data, dataCut, dataAligned, -⟩ := laid.aligned.column.revertAppend appended (nonempty laid.aligned.column)
  obtain ⟨validity, validityCut, validityAligned, -⟩ :=
    laid.aligned.validity.revertAppend appended (nonempty laid.aligned.validity)
  rw [min_eq_right (le_of_lt inside)] at dataAligned validityAligned
  rw [ColumnCells.revertAppend, dataCut, bind_some, validityCut, map_some]
  refine ⟨_, rfl, ⟨dataAligned, validityAligned⟩, ?_, ?_⟩
  · intro segment member
    obtain ⟨old, oldMember, start, vectors⟩ := ColumnData.revertAppend_segments validityCut segment member
    have regular := laid.regular old oldMember
    exact ⟨vectors.trans regular.vectors, start ▸ regular.start⟩
  · intro row behind
    have after : startRow ≤ row := behind
    simp [laid.aligned.validity.reachesBehind inside, after]

theorem scanVector_eq {database : Database D morselKind} (sound : SoundChains database)
    {reader : Transaction} (early : reader.startTime < transactionIdStart - 1)
    (high : transactionIdStart ≤ reader.transactionId) (column : ColumnCells D)
    (segmentKind : SegmentKind) (row : Nat) (unmentioned : mentions (undoNodes
      ((database.segments (segmentKind, row / morselSize)).info
        (row % morselSize / standardVectorSize))) (row % standardVectorSize) = []) :
    database.scanVector column.vectorBase reader (segmentKind, row / morselSize)
        (row % morselSize / standardVectorSize) (row % standardVectorSize) =
      (baseEntry ((database.segments (segmentKind, row / morselSize)).info
        (row % morselSize / standardVectorSize)) (row % standardVectorSize)).getD
          (baseValue morselKind column.vectorBase (updatePlace segmentKind row)) := by
  rw [Database.scanVector, UpdateSegment.fetchUpdates_eq]
  cases found : (database.segments (segmentKind, row / morselSize)).info (row % morselSize / standardVectorSize) with
  | none => rfl
  | some node =>
    rw [found] at unmentioned
    dsimp only
    rw [(sound _ _ node found).fetch early high]
    rw [show mentions node.next (row % standardVectorSize) = [] from unmentioned]
    rfl

end ColumnCells

namespace UpdatedColumn

variable {kind : ColumnKind} {state : UpdatedColumn D} {count : RowCount} {startRow : Nat}
  {transaction reader : Transaction} {appends : List (List (Option D))}
  {changes : List (SegmentUpdate D MorselKey)}

theorem erases_eq (aligned : state.column.layout.Aligned kind count) (inside : startRow < count.rows)
    (key : MorselKey) : state.erases startRow key = decide (startRow / morselSize < key.2) := by
  obtain ⟨segmentKind, number⟩ := key
  cases segmentKind with
  | validity =>
    rw [erases, columnData, aligned.validity.reachesBehind inside, Bool.true_and,
      findMorsel_eq aligned.validity.vectorAligned inside, any_some]
  | data =>
    rw [erases, columnData, aligned.column.reachesBehind inside, Bool.true_and,
      findMorsel_eq aligned.column.vectorAligned inside, any_some]

structure RolledBack (kind : ColumnKind) (state : UpdatedColumn D) (count : RowCount)
    (transaction : Transaction) (appended : ColumnCells D)
    (changes : List (SegmentUpdate D MorselKey)) (reverted : UpdatedColumn D) : Prop where
  laid : ColumnCells.Laid kind reverted.column count
  sound : ColumnCells.SoundChains reverted.database
  starting : Database.StartsAt morselStart reverted.database.segments
  unmentioned : ∀ segmentKind row, count.rows ≤ row → mentions (undoNodes
    ((reverted.database.segments (segmentKind, row / morselSize)).info
      (row % morselSize / standardVectorSize))) (row % standardVectorSize) = []
  entries : ∀ segmentKind row, count.rows ≤ row →
    baseEntry ((reverted.database.segments (segmentKind, row / morselSize)).info
      (row % morselSize / standardVectorSize)) (row % standardVectorSize) =
    state.stale count.rows transaction appended changes segmentKind row

theorem Settled.unmentioned (settled : Settled kind state count transaction)
    (segmentKind : SegmentKind) {row : Nat} (behind : count.rows ≤ row) : mentions (undoNodes
      ((state.database.segments (segmentKind, row / morselSize)).info
        (row % morselSize / standardVectorSize))) (row % standardVectorSize) = [] := by
  refine mentions_eq_nil fun info member present => ?_
  have below := settled.undoRows _ _ info member _ present
  have place : morselStart (segmentKind, row / morselSize) +
      row % morselSize / standardVectorSize * standardVectorSize + row % standardVectorSize = row :=
    place_row row
  omega

theorem updateLoop_startsAt {database : Database D morselKind} {base : MorselKey → Nat → FlatVector D}
    (starting : Database.StartsAt morselStart database.segments) :
    Database.StartsAt morselStart (database.updateLoop base transaction changes).segments := by
  induction changes generalizing database with
  | nil => exact starting
  | cons change rest ih =>
    rw [Database.updateLoop]
    cases made : database.update base transaction change.index change.target change.values with
    | error => exact starting
    | ok updated => exact ih (starting.update made)

theorem Settled.rolledBack (settled : Settled kind state count transaction) (length : D → Nat)
    (changes : List (SegmentUpdate D MorselKey)) (nonempty : 0 < appends.flatten.length) :
    ∃ reverted, state.appendRolledBack kind length count.rows transaction appends changes =
        some reverted ∧ RolledBack kind state count transaction
        (run (ColumnCells.append kind length) state.column appends) changes reverted := by
  have appendedLaid : ColumnCells.Laid kind (run (ColumnCells.append kind length) state.column appends)
      { rows := count.rows + appends.flatten.length, persisted := count.persisted } :=
    run_laid settled.laid
  have inside : count.rows < count.rows + appends.flatten.length := Nat.lt_add_of_pos_right nonempty
  obtain ⟨column, cut, laid⟩ := appendedLaid.revertAppend settled.laid.aligned.column.persistedRows inside
  rw [appendRolledBack, revertAppend]
  generalize run (ColumnCells.append kind length) state.column appends = appended at *
  have rolled := settled.unwritten.rolledBack appended.vectorBase changes
  rw [cut, map_some]
  have erased := @erases_eq D kind
    { column := appended
      database := state.database.updatedAndRolledBack appended.vectorBase transaction changes }
    _ count.rows appendedLaid.aligned inside
  simp only [erased, decide_eq_true_eq]
  refine ⟨_, rfl, laid, ?_, ?_, ?_, ?_⟩
  · intro key vectorIndex node found
    dsimp only at found
    split at found
    · cases found
    · exact (rolled key vectorIndex).1 node found
  · intro key
    dsimp only
    split
    · rfl
    · exact ((updateLoop_startsAt settled.starting).forEachEntry (fun _ _ => Database.modifyInfo_start ..) _) key
  · intro segmentKind row behind
    dsimp only
    split
    · rfl
    · rw [(rolled _ _).2.1]
      exact settled.unmentioned segmentKind behind
  · intro segmentKind row behind
    have notBefore := Nat.div_le_div_right (c := morselSize) behind
    dsimp only
    by_cases same : row / morselSize = count.rows / morselSize
    · rw [if_neg (by omega)]
      exact ((rolled _ _).2.2 _).trans (if_pos same).symm
    · rw [if_pos (by omega)]
      exact (if_neg same).symm

theorem entry_eq_iff {staleBit : Option Bool} {staleValue : Option D} {bit : Bool} {cell : D}
    {value : Option D} (stored : ∀ new, value = some new → cell = new) :
    entry (staleBit.getD bit) (staleValue.getD cell) = value ↔ staleBit.getD bit = value.isSome ∧
        ∀ old new, staleValue = some old → value = some new → old = new := by
  cases value with
  | none => cases staleBit.getD bit <;> simp [entry]
  | some new =>
    rw [stored new rfl]
    cases staleBit.getD bit
    · simp [entry]
    · cases staleValue <;> simp [entry]

variable {appended : ColumnCells D} {reverted : UpdatedColumn D}

section

variable (rolled : RolledBack kind state count transaction appended changes reverted)
include rolled

theorem RolledBack.scanVector_eq (early : reader.startTime < transactionIdStart - 1)
    (high : transactionIdStart ≤ reader.transactionId) (column : ColumnCells D)
    (segmentKind : SegmentKind) {row : Nat} (behind : count.rows ≤ row) :
    reverted.database.scanVector column.vectorBase reader (segmentKind, row / morselSize)
        (row % morselSize / standardVectorSize) (row % standardVectorSize) =
      (state.stale count.rows transaction appended changes segmentKind row).getD
        (baseValue morselKind column.vectorBase (ColumnCells.updatePlace segmentKind row)) := by
  rw [ColumnCells.scanVector_eq rolled.sound early high column segmentKind row
    (rolled.unmentioned segmentKind row behind)]
  exact congrArg (fun found => Option.getD found _) (rolled.entries segmentKind row behind)

theorem RolledBack.reads_iff (early : reader.startTime < transactionIdStart - 1)
    (high : transactionIdStart ≤ reader.transactionId) (length : D → Nat)
    (before after : List (List (Option D))) {values : List (Option D)} {position : Nat}
    {value : Option D} (here : values[position]? = some value) :
    let start := count.rows + before.flatten.length
    let row := start + position
    let final := run (ColumnCells.append kind length) reverted.column (before ++ values :: after)
    (final.updatedEntry reverted.database reader row = value ∧ (morselSize ≤ row → final.read row row = value)) ↔
      Harmless (state.staleBit count.rows transaction appended changes row)
        (state.staleValue count.rows transaction appended changes row) row
        (!isNullAt values (maskPosition start position)) value := by
  intro start row final
  have behind : count.rows ≤ row := le_trans (Nat.le_add_right _ _) (Nat.le_add_right _ _)
  obtain ⟨cells, mask⟩ := run_appended length before after rolled.laid (List.getElem?_eq_some_iff.mp here).1
  have stored : ∀ new, value = some new → final.cells row = new := by
    rintro new rfl
    exact cells new here
  have read : final.updatedEntry reverted.database reader row = entry
      ((state.staleBit count.rows transaction appended changes row).getD (final.mask row))
      ((state.staleValue count.rows transaction appended changes row).getD (final.cells row)) := by
    refine congrArg₂ entry ?_ ?_
    · exact (rolled.scanVector_eq early high final .validity behind).trans
        (congrArg (getD (state.staleBit _ _ _ _ row)) (baseValue_validity final row))
    · exact (rolled.scanVector_eq early high final .data behind).trans
        (congrArg (getD (state.staleValue _ _ _ _ row)) (baseValue_data))
  rw [read, entry_eq_iff stored, read_eq_iff stored, mask]
  constructor
  · rintro ⟨⟨nullness, same⟩, fetched⟩
    exact ⟨nullness, same, fetched⟩
  · rintro ⟨nullness, same, fetched⟩
    exact ⟨⟨nullness, same⟩, fetched⟩

theorem RolledBack.reads_all_iff (reader : Transaction) (length : D → Nat) (later : List (List (Option D))) :
    let final := run (ColumnCells.append kind length) reverted.column later
    ((∃ rows, final.scanUpdated reverted.database reader (count.rows + later.flatten.length) =
        some rows ∧ rows.drop count.rows = later.flatten) ∧
      ∀ position < later.flatten.length,
        final.fetchUpdated reverted.database reader (count.rows + position) = later.flatten[position]?) ↔
    ∀ position value, later.flatten[position]? = some value →
      final.updatedEntry reverted.database reader (count.rows + position) = value ∧
        (morselSize ≤ count.rows + position → final.read (count.rows + position) (count.rows + position) = value) := by
  intro final
  have laid : ColumnCells.Laid kind final { rows := count.rows + later.flatten.length, persisted := count.persisted } :=
    run_laid rolled.laid
  have scanned := scanUpdated_eq laid.aligned rolled.sound reader
  have fetched : ∀ position < later.flatten.length,
      final.fetchUpdated reverted.database reader (count.rows + position) = _ :=
    fun position inside => fetchUpdated_eq laid.aligned rolled.sound rolled.starting
      reader (Nat.add_lt_add_left inside _)
  have tail : ((range (count.rows + later.flatten.length)).map
      (final.updatedEntry reverted.database reader)).drop count.rows = (range later.flatten.length).map fun position =>
          final.updatedEntry reverted.database reader (count.rows + position) := by
    rw [range_add, map_append, drop_append_of_le_length (by simp),
      drop_of_length_le (by simp), nil_append, List.map_map]
    rfl
  constructor
  · rintro ⟨⟨rows, found, same⟩, fetches⟩ position value here
    have inside := (List.getElem?_eq_some_iff.mp here).1
    rw [scanned] at found
    cases found
    rw [tail] at same
    have first : final.updatedEntry reverted.database reader (count.rows + position) = value := by
      rw [← same, getElem?_map, getElem?_range inside, map_some] at here
      exact some.inj here
    refine ⟨first, fun behind => ?_⟩
    have second := fetches position inside
    rw [fetched position inside, if_neg (not_lt.mpr behind), here] at second
    exact some.inj second
  · intro reads
    refine ⟨⟨_, scanned, ?_⟩, ?_⟩
    · rw [tail]
      refine ext_getElem (by simp) ?_
      intro position _ inside
      rw [getElem_map, getElem_range]
      exact (reads position _ (getElem?_eq_getElem inside)).1
    intro position inside
    obtain ⟨first, second⟩ := reads position _ (getElem?_eq_getElem inside)
    rw [fetched position inside, getElem?_eq_getElem inside]
    congr 1
    split
    · exact first
    · next behind => exact second (Nat.le_of_not_lt behind)

end

/-- Rows that are appended where a transaction was rolled back read as they were appended if and
only if every stale entry of the update segment agrees with the new row. -/
theorem leavesNoTrace_iff (kind : ColumnKind) (length : D → Nat) (state : UpdatedColumn D)
    (count : RowCount) (transaction : Transaction) (settled : Settled kind state count transaction)
    (appends : List (List (Option D))) (nonempty : 0 < appends.flatten.length)
    (changes : List (SegmentUpdate D MorselKey)) (later : List (List (Option D)))
    (reader : Transaction) (early : reader.startTime < transactionIdStart - 1)
    (high : transactionIdStart ≤ reader.transactionId) :
    let appended := run (ColumnCells.append kind length) state.column appends
    state.LeavesNoTrace kind length count.rows transaction appends changes later reader ↔
      ∀ before values after, later = before ++ values :: after →
        ∀ position value, values[position]? = some value →
          let start := count.rows + before.flatten.length
          let row := start + position
          Harmless (state.staleBit count.rows transaction appended changes row)
            (state.staleValue count.rows transaction appended changes row) row
            (!isNullAt values (maskPosition start position)) value := by
  intro appended
  obtain ⟨reverted, found, rolled⟩ := settled.rolledBack length changes nonempty
  have reads := rolled.reads_iff early high length
  have whole := rolled.reads_all_iff reader length later
  constructor
  · rintro ⟨other, otherFound, all⟩ before values after rfl position value here
    rw [found] at otherFound
    cases otherFound
    have inside := (List.getElem?_eq_some_iff.mp here).1
    refine (reads before after here).mp ?_
    rw [add_assoc]
    exact whole.mp all _ value ((ColumnCells.flatten_getElem? inside).trans here)
  · intro harmless
    refine ⟨reverted, found, whole.mpr fun position value here => ?_⟩
    obtain ⟨before, values, after, offset, split, inside, place, same⟩ :=
      exists_append_of_lt (List.getElem?_eq_some_iff.mp here).1
    rw [same] at here
    have read := (reads before after here).mpr (harmless before values after split offset value here)
    rw [split, place, ← add_assoc]
    exact read

/-! A row that is appended, updated and rolled back -/

def blank : UpdatedColumn Nat where
  column := .empty fun _ => 0
  database := .initial morselStart

def rolledBackWriter : Transaction where
  startTime := 1
  transactionId := transactionIdStart
  commitId := 0
  highestActiveQuery := 0
  activeQuery := maximumQueryId

def setFirst : SegmentUpdate Nat MorselKey where
  index := (.data, 0)
  target := History.firstRow
  values := { data := fun _ => 2, validity := none }

theorem blank_settled (kind : ColumnKind) : Settled kind blank .initial rolledBackWriter where
  laid := empty_laid kind _
  starting := fun _ => rfl
  unwritten :=
    { sound := fun _ _ _ found => absurd found.symm (some_ne_none _)
      unowned := fun _ _ _ inside => absurd inside not_mem_nil }
  undoRows := fun _ _ _ inside => absurd inside not_mem_nil

theorem blank_leavesNoTrace :
    blank.LeavesNoTrace (.numeric .four) id 0 rolledBackWriter [[some 1]] [setFirst] [[some 1]]
      sevenReader := by
  refine (leavesNoTrace_iff (.numeric .four) id blank .initial rolledBackWriter
    (blank_settled _) [[some 1]] (by decide) [setFirst] [[some 1]] sevenReader
    (by decide) (by decide)).mpr ?_
  intro before values after split position value here
  cases before with
  | cons first rest => simp at split
  | nil =>
    obtain ⟨rfl, rfl⟩ := cons.inj split
    cases position with
    | succ position => simp at here
    | zero =>
      cases here
      refine ⟨?_, ?_, ?_⟩
      · decide +kernel
      · intro stored new isStored isNew
        have found : blank.staleValue 0 rolledBackWriter
            (run (ColumnCells.append (.numeric .four) id) blank.column [[some 1]])
            [setFirst] 0 = some 1 := by decide +kernel
        exact some.inj (isStored.symm.trans (found.trans isNew))
      · decide

/-- After the rollback the value 9 is appended, and the scan reads 1. -/
theorem not_leavesNoTrace :
    ¬blank.LeavesNoTrace (.numeric .four) id 0 rolledBackWriter [[some 1]] [setFirst] [[some 9]]
      sevenReader := by
  rintro ⟨reverted, found, ⟨rows, scanned, same⟩, -⟩
  have read : (blank.appendRolledBack (.numeric .four) id 0 rolledBackWriter [[some 1]]
      [setFirst]).bind (fun reverted =>
        (run (ColumnCells.append (.numeric .four) id) reverted.column [[some 9]]).scanUpdated
          reverted.database sevenReader 1) = some [some 1] := by
    decide +kernel
  rw [found, bind_some] at read
  have stale : rows = [some 1] := some.inj (scanned.symm.trans read)
  rw [stale] at same
  exact absurd same (by decide)

end UpdatedColumn

end GuinsooDB
