import GuinsooDB.Storage.ColumnCells
import GuinsooDB.Update.Snapshot

/-!
Reading a column with updates by a scan and by the fetch of one row. Both go through the segments
and the update segments of the column and of its validity column, each with its own arithmetic
from row ids to positions.
-/

namespace GuinsooDB

open SortedEntries SnapshotLedger UndoChain Transition List Option Function

variable {D : Type}

def fetchTuple {V : Type} (row : Nat) : List (Nat × V) → Option V
  | [] => none
  | (tuple, value) :: rest =>
    if tuple = row then some value
    else if row < tuple then none
    else fetchTuple row rest

/-- `UpdateSegment::FetchRow`. The position is counted from the first row of the table. -/
def UpdateSegment.fetchRow {kind : SegmentKind} (segment : UpdateSegment D kind)
    (transaction : Transaction) (rowId : Nat) (result : Stored D kind) : Stored D kind :=
  let vectorIndex := (rowId - segment.start) / standardVectorSize
  match segment.info vectorIndex with
  | none => result
  | some node =>
    let rowInVector := rowId - vectorIndex * standardVectorSize
    updatesForTransaction (node.info :: node.next) transaction.startTime
      transaction.transactionId
      (fun current value => (fetchTuple rowInVector current.tuples).getD value) result

/-- The update segments of a column, or of its validity column, are counted from 0. -/
abbrev MorselKey := SegmentKind × Nat

abbrev morselKind : MorselKey → SegmentKind := Prod.fst

def morselStart (key : MorselKey) : Nat := key.2 * morselSize

namespace ColumnCells

variable (column : ColumnCells D)

/-- The vectors that updates take old values from. A validity segment without NULLs gives no
mask. -/
def vectorBase (key : MorselKey) (vectorIndex : Nat) : FlatVector D :=
  let first := morselStart key + vectorIndex * standardVectorSize
  { data := fun slot => column.cells (first + slot)
    validity :=
      if (List.range standardVectorSize).all fun slot => column.mask (first + slot) then none
      else some fun slot => column.mask (first + slot) }

variable (database : Database D morselKind) (transaction : Transaction)

def mergeUpdates (kind : SegmentKind) (rows : List Nat) (result : Nat → Stored D kind) :
    Nat → Stored D kind :=
  let first := rows.headD 0
  (database.segments (kind, first / morselSize)).fetchUpdates transaction
    (first % morselSize / standardVectorSize) result

def entry (valid : Bool) (value : D) : Option D := if valid then some value else none

def scanVisit (visit : VectorVisit) : List (Option D) :=
  let valid := mergeUpdates database transaction .validity visit.validityUpdates
    fun slot => column.mask (visit.validity.getD slot 0)
  let data := mergeUpdates database transaction .data visit.columnUpdates
    fun slot => column.cells (visit.column.getD slot 0)
  (List.range visit.column.length).map fun slot => entry (valid slot) (data slot)

def scanUpdated (rows : Nat) : Option (List (Option D)) :=
  (ColumnScan.visits (vectorsFor rows) (.initial column.layout)).map fun visits =>
    visits.flatMap (column.scanVisit database transaction)

def findMorsel (data : ColumnData) (row : Nat) : Option Nat :=
  (findUpdateMorsel data.updates row).bind fun index =>
    data.updates[index]?.map fun morsel => morsel.start / morselSize

def fetchUpdated (row : Nat) : Option (Option D) :=
  (fetchSlot column.layout.validity.data row).bind fun validityRow =>
    (findMorsel column.layout.validity row).bind fun validityMorsel =>
      (fetchSlot column.layout.column.data row).bind fun dataRow =>
        (findMorsel column.layout.column row).map fun dataMorsel =>
          let valid := (database.segments (.validity, validityMorsel)).fetchRow transaction row
            (column.mask validityRow)
          let value := (database.segments (.data, dataMorsel)).fetchRow transaction row
            (column.cells dataRow)
          entry valid value

end ColumnCells

/-! Fetching from one update segment -/

theorem fetchTuple_eq_lookup {V : Type} {tuples : List (Nat × V)} (sorted : Ascending tuples)
    (row : Nat) : fetchTuple row tuples = tuples.lookup row := by
  induction tuples with
  | nil => rfl
  | cons first rest ih =>
    obtain ⟨smallest, restSorted⟩ := ascending_cons.mp sorted
    rw [fetchTuple, lookup_cons]
    by_cases same : first.1 = row
    · subst same
      simp
    have differs : (row == first.1) = false := beq_eq_false_iff_ne.mpr fun equal => same equal.symm
    rw [if_neg same, differs]
    split
    · next before => exact (lookup_none_of_le (le_of_lt before) smallest).symm
    · exact ih restSorted

theorem updatesForTransaction_fetch {V : Type} {chain : List (UpdateInfo V)}
    (sorted : ∀ info ∈ chain, Ascending info.tuples) (startTime transactionId : Nat) (result : V)
    (row : Nat) :
    updatesForTransaction chain startTime transactionId
        (fun current value => (fetchTuple row current.tuples).getD value) result =
      rewind (Ledger.hidden { startTime, transaction := transactionId }) result (mentions chain row) :=
  @updatesForTransaction_rewind _ _ _ id _ row (fun info member _ => by
    rw [fetchTuple_eq_lookup (sorted info member)]
    rfl) ..

namespace UpdateNodeData.Sound

variable {V : Type} {node : UpdateNodeData V}

theorem chain_sorted (sound : node.Sound) : ∀ info ∈ node.info :: node.next, Ascending info.tuples :=
  forall_mem_cons.mpr ⟨sound.baseSorted, sound.sorted⟩

theorem chain_bounded (sound : node.Sound) :
    ∀ info ∈ node.info :: node.next, ∀ entry ∈ info.tuples, entry.1 < standardVectorSize :=
  forall_mem_cons.mpr ⟨sound.baseBounded, sound.bounded⟩

theorem mentions_behind (sound : node.Sound) {row : Nat} (behind : standardVectorSize ≤ row) :
    mentions (node.info :: node.next) row = [] := by
  refine mentions_eq_nil fun info member present => ?_
  obtain ⟨entry, inTuples, same⟩ := mem_map.mp present
  have below := sound.chain_bounded info member entry inTuples
  omega

end UpdateNodeData.Sound

namespace UpdateSegment

variable {kind : SegmentKind} {segment : UpdateSegment D kind} {transaction : Transaction}
  {vectorIndex row slot : Nat}

theorem fetchUpdates_congr (sound : ∀ node, segment.info vectorIndex = some node → node.Sound)
    {first second : Nat → Stored D kind} (same : first slot = second slot) :
    segment.fetchUpdates transaction vectorIndex first slot =
      segment.fetchUpdates transaction vectorIndex second slot := by
  rw [fetchUpdates, fetchUpdates]
  cases found : segment.info vectorIndex with
  | none => exact same
  | some node =>
    have nodeSound := sound node found
    dsimp only
    rw [updatesForTransaction_apply nodeSound.chain_sorted nodeSound.chain_bounded,
      updatesForTransaction_apply nodeSound.chain_sorted nodeSound.chain_bounded, same]

theorem fetchRow_first (first : segment.start = 0)
    (sound : ∀ node, segment.info (row / standardVectorSize) = some node → node.Sound)
    (result : Nat → Stored D kind) :
    segment.fetchRow transaction row (result (row % standardVectorSize)) =
      segment.fetchUpdates transaction (row / standardVectorSize) result (row % standardVectorSize) := by
  have place : row - row / standardVectorSize * standardVectorSize = row % standardVectorSize := by
    simp only [standardVectorSize]
    omega
  rw [fetchRow, fetchUpdates, first, Nat.sub_zero]
  cases found : segment.info (row / standardVectorSize) with
  | none => rfl
  | some node =>
    have nodeSound := sound node found
    dsimp only
    rw [place, updatesForTransaction_fetch nodeSound.chain_sorted,
      updatesForTransaction_apply nodeSound.chain_sorted nodeSound.chain_bounded]

theorem fetchRow_later (later : standardVectorSize ≤ segment.start) (inside : segment.start ≤ row)
    (sound : ∀ vectorIndex node, segment.info vectorIndex = some node → node.Sound)
    (result : Stored D kind) : segment.fetchRow transaction row result = result := by
  have behind : standardVectorSize ≤ row - (row - segment.start) / standardVectorSize * standardVectorSize := by
    have bounded := Nat.div_mul_le_self (row - segment.start) standardVectorSize
    omega
  rw [fetchRow]
  cases found : segment.info ((row - segment.start) / standardVectorSize) with
  | none => rfl
  | some node =>
    have nodeSound := sound _ node found
    dsimp only
    rw [updatesForTransaction_fetch nodeSound.chain_sorted, nodeSound.mentions_behind behind]
    rfl

end UpdateSegment

/-! The update segments stay where they start -/

namespace Database

variable {ι : Type} [DecidableEq ι] {kind : ι → SegmentKind} {segmentKind : SegmentKind}

theorem modifyInfo_start (segment : UpdateSegment D segmentKind) (vectorIndex : Nat)
    (change : UpdateNodeData (Stored D segmentKind) → UpdateNodeData (Stored D segmentKind)) :
    (segment.modifyInfo vectorIndex change).start = segment.start := by
  rw [UpdateSegment.modifyInfo]
  split
  · rfl
  · rfl

variable {transaction : Transaction} {target : VectorRows} {values : FlatVector D}

theorem update_start {segment : UpdateSegment D segmentKind} {baseData : FlatVector D}
    {result : UpdateSegment D segmentKind × List Nat}
    (updated : segment.update transaction values (target.ids segment.start) baseData = .ok result) :
    result.1.start = segment.start := by
  cases UpdateSegment.update_spec updated with
  | skipped _ => rfl
  | empty _ _ => rfl
  | created _ _ => rfl
  | extended _ _ _ => rfl

def StartsAt (starts : ι → Nat) (segments : (index : ι) → UpdateSegment D (kind index)) : Prop :=
  ∀ index, (segments index).start = starts index

variable {starts : ι → Nat} {segments : (index : ι) → UpdateSegment D (kind index)}
  {database : Database D kind} {index : ι}

theorem StartsAt.set (starting : StartsAt starts segments)
    {segment : UpdateSegment D (kind index)} (same : segment.start = (segments index).start) :
    StartsAt starts (Function.update segments index segment) := by
  intro other
  by_cases here : other = index
  · subst here
    rw [update_self, same]
    exact starting other
  · rw [update_of_ne here]
    exact starting other

theorem StartsAt.forEachEntry (starting : StartsAt starts segments)
    {change : {kind : SegmentKind} → UpdateSegment D kind → Nat → UpdateSegment D kind}
    (keeps : ∀ {kind : SegmentKind} (segment : UpdateSegment D kind) vectorIndex,
      (change segment vectorIndex).start = segment.start) (entries : List (ι × Nat)) :
    StartsAt starts (forEachEntry change segments entries) := by
  induction entries generalizing segments with
  | nil => exact starting
  | cons entry rest ih => exact ih (starting.set (keeps _ _))

variable (starting : StartsAt starts database.segments)
include starting

theorem StartsAt.removeTransaction (transaction : Transaction) :
    StartsAt starts (database.removeTransaction transaction).segments := by
  rw [Database.removeTransaction]
  generalize database.manager.removeTransaction transaction = removed
  obtain ⟨manager, cleaned⟩ := removed
  generalize database.segments = segments at starting
  induction cleaned generalizing segments with
  | nil => exact starting
  | cons old rest ih =>
    exact ih _ (starting.forEachEntry (fun _ _ => modifyInfo_start ..) _)

theorem StartsAt.commitTransaction (transaction : Transaction) (failure : Option Nat) :
    StartsAt starts (database.commitTransaction transaction failure).segments := by
  cases failure with
  | none => exact (starting.forEachEntry (fun _ _ => modifyInfo_start ..) _).removeTransaction _
  | some reached =>
    exact (((starting.forEachEntry (fun _ _ => modifyInfo_start ..) _).forEachEntry
      (fun _ _ => modifyInfo_start ..) _).forEachEntry (fun _ _ => modifyInfo_start ..) _).removeTransaction _

theorem StartsAt.rollbackTransaction (transaction : Transaction) :
    StartsAt starts (database.rollbackTransaction transaction).segments := by
  exact (starting.forEachEntry (fun _ _ => modifyInfo_start ..) _).removeTransaction _

theorem StartsAt.update {base : ι → Nat → FlatVector D} {updated : Database D kind}
    (ok : database.update base transaction index target values = .ok updated) :
    StartsAt starts updated.segments := by
  rw [Database.update] at ok
  cases made : (database.segments index).update transaction values
      (target.ids (database.segments index).start) (base index target.vectorIndex) with
  | error message =>
    simp only [made] at ok
    cases ok
  | ok result =>
    simp only [made] at ok
    cases ok
    exact starting.set (update_start made)

end Database

namespace History

variable {ι : Type} [DecidableEq ι] {kind : ι → SegmentKind} {starts : ι → Nat}
  {base : ι → Nat → FlatVector D} {history : History D kind}

theorem step_startsAt (starting : Database.StartsAt starts history.database.segments) {action : Action D ι} :
    Database.StartsAt starts (history.step base action).database.segments := by
  cases action with
  | start =>
    rw [step]
    cases started : history.database.startTransaction with
    | error => exact starting
    | ok result =>
      rw [Database.startTransaction] at started
      split at started
      · cases started
        exact starting
      · cases started
  | update transactionId index target values =>
    rw [step]
    cases history.database.manager.find transactionId with
    | none => exact starting
    | some transaction =>
      cases updated : history.database.update base transaction index target values with
      | error =>
        dsimp only
        rw [updated]
        exact starting
      | ok database =>
        dsimp only
        rw [updated]
        exact starting.update updated
  | commit transactionId failure =>
    rw [step]
    cases history.database.manager.find transactionId with
    | none => exact starting
    | some transaction => exact starting.commitTransaction transaction failure
  | rollback transactionId =>
    rw [step]
    cases history.database.manager.find transactionId with
    | none => exact starting
    | some transaction => exact starting.rollbackTransaction transaction

theorem run_tracks {actions : List (Action D ι)}
    (timed : Meets (step base) Timed (History.initial starts : History D kind) actions) :
    let history := run (step base) (History.initial starts : History D kind) actions
    Tracks base history.database history.recorded ∧ Database.StartsAt starts history.database.segments := by
  have preserved : ∀ (history : History D kind) action, (Tracks base history.database history.recorded ∧
        Database.StartsAt starts history.database.segments) → history.Timed action →
      Tracks base (history.step base action).database (history.step base action).recorded ∧
        Database.StartsAt starts (history.step base action).database.segments :=
    fun history action kept timed => ⟨(step_invariant kept.1 timed).1, step_startsAt kept.2⟩
  exact run_invariant preserved ⟨.initial starts, fun _ => rfl⟩ timed

end History

namespace ColumnCells

def updatePlace (kind : SegmentKind) (row : Nat) : RowKey MorselKey :=
  ((kind, row / morselSize), row % morselSize / standardVectorSize, row % standardVectorSize)

def snapshotEntry (column : ColumnCells D) (recorded : Ledger (RowValue D morselKind))
    (transaction : Transaction) (row : Nat) : Option D :=
  let read := recorded.read (baseValue morselKind column.vectorBase) transaction.reader
  entry (read (updatePlace .validity row)) (read (updatePlace .data row))

variable {column : ColumnCells D} {columnKind : ColumnKind} {count : RowCount}
  {database : Database D morselKind} {recorded : Ledger (RowValue D morselKind)}
  {transaction : Transaction} {row : Nat}

theorem place_row (row : Nat) : row / morselSize * morselSize +
    row % morselSize / standardVectorSize * standardVectorSize + row % standardVectorSize = row := by
  simp only [morselSize, standardVectorSize, morselVectorCount]
  omega

variable {column : ColumnCells D}

theorem baseValue_data {row : Nat} :
    baseValue morselKind column.vectorBase (updatePlace .data row) = column.cells row :=
  congrArg column.cells (place_row row)

theorem rowIsValid_masked (data : Nat → D) (mask : Nat → Bool) {size slot : Nat} (inside : slot < size) :
    FlatVector.rowIsValid
      { data, validity := if (List.range size).all mask then none else some mask } slot = mask slot := by
  rw [FlatVector.rowIsValid]
  by_cases all : (range size).all mask = true
  · rw [if_pos all, all_eq_true.mp all slot (mem_range.mpr inside)]
  · rw [if_neg all]

theorem baseValue_validity (column : ColumnCells D) (row : Nat) :
    baseValue morselKind column.vectorBase (updatePlace .validity row) = column.mask row := by
  have bit := rowIsValid_masked
    (column.vectorBase (.validity, row / morselSize) (row % morselSize / standardVectorSize)).data
    (fun slot => column.mask (morselStart (.validity, row / morselSize) +
      row % morselSize / standardVectorSize * standardVectorSize + slot))
    (Nat.mod_lt row (show 0 < standardVectorSize by decide))
  exact bit.trans (congrArg column.mask (place_row row))

def updatedEntry (column : ColumnCells D) (database : Database D morselKind)
    (transaction : Transaction) (row : Nat) : Option D :=
  let read := fun kind => database.scanVector column.vectorBase transaction
    (kind, row / morselSize) (row % morselSize / standardVectorSize) (row % standardVectorSize)
  entry (read .validity) (read .data)

def SoundChains (database : Database D morselKind) : Prop :=
  ∀ key vectorIndex node, (database.segments key).info vectorIndex = some node → node.Sound

variable {transaction : Transaction}

theorem mergeUpdates_eq (sound : SoundChains database) {kind : SegmentKind} {rows : List Nat} {slot : Nat}
    (morsel : rows.headD 0 / morselSize = row / morselSize)
    (vector : rows.headD 0 % morselSize / standardVectorSize =
      row % morselSize / standardVectorSize) (place : row % standardVectorSize = slot)
    {result : Nat → Stored D kind}
    (stored : result slot = baseValue morselKind column.vectorBase (updatePlace kind row)) :
    mergeUpdates database transaction kind rows result slot =
      database.scanVector column.vectorBase transaction (kind, row / morselSize)
        (row % morselSize / standardVectorSize) (row % standardVectorSize) := by
  subst place
  rw [mergeUpdates, morsel, vector]
  refine UpdateSegment.fetchUpdates_congr (fun node found => ?_) stored
  exact sound _ _ node found

theorem scanVisit_eq (sound : SoundChains database) {visit : VectorVisit} {rows vector : Nat}
    (stands : visit.At rows (vector * standardVectorSize)) :
    column.scanVisit database transaction visit = visit.column.map (column.updatedEntry database transaction) := by
  obtain ⟨visited, columnUpdates, validity, validityUpdates⟩ := stands
  have places : ∀ slot < standardVectorSize, vector * standardVectorSize / morselSize =
          (vector * standardVectorSize + slot) / morselSize ∧
        vector * standardVectorSize % morselSize / standardVectorSize =
          (vector * standardVectorSize + slot) % morselSize / standardVectorSize ∧
        (vector * standardVectorSize + slot) % standardVectorSize = slot := by
    simp only [morselSize, standardVectorSize, morselVectorCount]
    omega
  rw [scanVisit, validityUpdates, columnUpdates, validity, visited, length_range']
  generalize vector * standardVectorSize = first at places
  generalize size : min standardVectorSize (rows - first) = n
  conv_rhs => rw [range'_eq_map_range, List.map_map]
  refine map_congr_left fun slot listed => ?_
  have bounds : slot < n := mem_range.mp listed
  obtain ⟨morsel, inMorsel, place⟩ := places slot (by omega)
  have head : (range' first n).headD 0 = first := by
    obtain ⟨m, rfl⟩ := Nat.exists_eq_succ_of_ne_zero (Nat.ne_of_gt (Nat.zero_lt_of_lt bounds))
    rfl
  have found : (range' first n).getD slot 0 = first + slot := by
    rw [getD_eq_getElem?_getD, getElem?_range' bounds, one_mul]
    rfl
  rw [← head] at morsel inMorsel
  exact congrArg₂ entry (mergeUpdates_eq sound (by rw [morsel, head]) (by rw [inMorsel, head]) place
      ((congrArg column.mask found).trans (baseValue_validity ..).symm))
    (mergeUpdates_eq sound (by rw [morsel, head]) (by rw [inMorsel, head]) place
      ((congrArg column.cells found).trans (baseValue_data ..).symm))

variable (aligned : column.layout.Aligned columnKind count)

include aligned in
theorem scanUpdated_eq
    (sound : SoundChains database) (transaction : Transaction) :
    column.scanUpdated database transaction count.rows =
      some ((List.range count.rows).map (column.updatedEntry database transaction)) := by
  obtain ⟨visits, visited, ranges, stands⟩ := aligned.visits
  rw [scanUpdated, visited, map_some, ← ranges, map_flatMap]
  congr 1
  refine flatMap_congr fun visit listed => ?_
  obtain ⟨vector, -, standsAt⟩ := stands visit listed
  exact scanVisit_eq sound standsAt

theorem findMorsel_eq {data : ColumnData} {rows : Nat} (aligned : data.VectorAligned rows)
    (inside : row < rows) : findMorsel data row = some (row / morselSize) := by
  obtain ⟨index, morsel, found, here, holds, -⟩ := aligned.foundUpdates row inside
  obtain ⟨divides, small⟩ := aligned.morsels morsel (mem_of_getElem? here)
  obtain ⟨number, starts⟩ := divides
  rw [findMorsel, found, bind_some, here, map_some, starts, Nat.mul_div_cancel_left _ morselSize_pos]
  obtain ⟨after, before⟩ := holds
  rw [starts] at after before
  congr 1
  symm
  refine Nat.div_eq_of_lt_le (by rw [mul_comm]; exact after) ?_
  rw [Nat.succ_mul, mul_comm]
  omega

theorem fetchRow_first (sound : SoundChains database)
    (starting : Database.StartsAt morselStart database.segments) (column : ColumnCells D)
    (transaction : Transaction) (kind : SegmentKind) (first : row < morselSize)
    {result : Stored D kind}
    (stored : result = baseValue morselKind column.vectorBase (updatePlace kind row)) :
    (database.segments (kind, row / morselSize)).fetchRow transaction row result =
      database.scanVector column.vectorBase transaction (kind, row / morselSize)
        (row % morselSize / standardVectorSize) (row % standardVectorSize) := by
  have starts : (database.segments (kind, row / morselSize)).start = 0 := by
    rw [starting, morselStart, Nat.div_eq_of_lt first, zero_mul]
  have vector : row % morselSize / standardVectorSize = row / standardVectorSize := by
    rw [Nat.mod_eq_of_lt first]
  rw [Database.scanVector, vector]
  refine Eq.trans (UpdateSegment.fetchRow_first starts ?_ fun _ => result) ?_
  · exact fun node found => sound _ _ node found
  · refine UpdateSegment.fetchUpdates_congr ?_ ?_
    · exact fun node found => sound _ _ node found
    · rw [stored, ← vector]
      rfl

theorem fetchRow_later (sound : SoundChains database)
    (starting : Database.StartsAt morselStart database.segments) (kind : SegmentKind)
    (later : morselSize ≤ row) (result : Stored D kind) :
    (database.segments (kind, row / morselSize)).fetchRow transaction row result = result := by
  have starts : (database.segments (kind, row / morselSize)).start = row / morselSize * morselSize := starting _
  refine UpdateSegment.fetchRow_later ?_ ?_ (sound (kind, row / morselSize)) result
  · have whole := Nat.mul_le_mul_right morselSize (Nat.div_pos later morselSize_pos)
    have small : standardVectorSize ≤ morselSize := by decide
    omega
  · rw [starts]
    exact Nat.div_mul_le_self _ _

include aligned in
theorem fetchUpdated_eq
    (sound : SoundChains database) (starting : Database.StartsAt morselStart database.segments)
    (transaction : Transaction) (inside : row < count.rows) :
    column.fetchUpdated database transaction row = some
      (if row < morselSize then column.updatedEntry database transaction row
        else column.read row row) := by
  rw [fetchUpdated, fetchSlot_eq aligned.validity.vectorAligned inside, bind_some,
    findMorsel_eq aligned.validity.vectorAligned inside, bind_some,
    fetchSlot_eq aligned.column.vectorAligned inside, bind_some,
    findMorsel_eq aligned.column.vectorAligned inside, map_some]
  congr 1
  split
  · next first =>
      exact congrArg₂ entry (fetchRow_first sound starting column transaction .validity first
          (baseValue_validity ..).symm)
        (fetchRow_first sound starting column transaction .data first (baseValue_data ..).symm)
  · next later =>
      have behind := Nat.le_of_not_lt later
      exact congrArg₂ entry (fetchRow_later sound starting .validity behind _)
        (fetchRow_later sound starting .data behind _)

def FetchesAsScanned (column : ColumnCells D) (rows : Nat) (database : Database D morselKind)
    (transaction : Transaction) (row : Nat) : Prop :=
  ∃ value, (column.scanUpdated database transaction rows).bind (fun values => values[row]?) =
      some value ∧
    column.fetchUpdated database transaction row = some value

/-- The row is in the first update segment, or the updates that the transaction sees leave it at
its stored value. -/
def UpdatesReached (column : ColumnCells D) (recorded : Ledger (RowValue D morselKind))
    (transaction : Transaction) (row : Nat) : Prop :=
  row < morselSize ∨ column.snapshotEntry recorded transaction row = column.read row row

include aligned in
theorem fetchesAsScanned_iff_reached
    (tracks : Tracks column.vectorBase database recorded)
    (starting : Database.StartsAt morselStart database.segments)
    (member : transaction ∈ database.manager.activeTransactions) (inside : row < count.rows) :
    column.FetchesAsScanned count.rows database transaction row ↔ column.UpdatesReached recorded transaction row := by
  have sound : SoundChains database := fun key vectorIndex node found =>
    (tracks.vector key vectorIndex node found).sound
  rw [FetchesAsScanned, UpdatesReached, fetchUpdated_eq aligned sound starting transaction inside,
    scanUpdated_eq aligned sound, bind_some, getElem?_map,
    getElem?_range inside, map_some,
    show column.updatedEntry database transaction row = column.snapshotEntry recorded transaction row
      from congrArg₂ entry (tracks.scan member ..) (tracks.scan member ..)]
  by_cases first : row < morselSize
  · rw [if_pos first]
    exact iff_of_true ⟨_, rfl, rfl⟩ (.inl first)
  rw [if_neg first]
  constructor
  · rintro ⟨value, scanned, fetched⟩
    exact .inr ((some.inj scanned).trans (some.inj fetched).symm)
  · rintro (early | unchanged)
    · exact absurd early first
    · exact ⟨_, rfl, congrArg some unchanged.symm⟩

/-- After every history of updates, a fetch of a row and a scan agree if and only if the updates
of the row are reached. -/
theorem fetchesAsScanned_iff (columnKind : ColumnKind) (column : ColumnCells D) (count : RowCount)
    (aligned : column.layout.Aligned columnKind count) (actions : List (Action D MorselKey))
    (timed : Meets (History.step column.vectorBase) History.Timed
      (History.initial morselStart : History D morselKind) actions) :
    let history := run (History.step column.vectorBase)
      (History.initial morselStart : History D morselKind) actions
    ∀ transaction ∈ history.database.manager.activeTransactions, ∀ row < count.rows,
      column.FetchesAsScanned count.rows history.database transaction row ↔
        column.UpdatesReached history.recorded transaction row := by
  intro history transaction member row inside
  obtain ⟨tracks, starting⟩ : Tracks column.vectorBase history.database history.recorded ∧
      Database.StartsAt morselStart history.database.segments := History.run_tracks timed
  exact fetchesAsScanned_iff_reached aligned tracks starting member inside

/-! An update behind the first morsel -/

def zeros : ColumnCells Nat where
  layout :=
    { column := ColumnData.empty.append (.numeric .four) (replicate (morselSize + 1) (some 4))
      validity := ColumnData.empty.append .validity (replicate (morselSize + 1) (some 4)) }
  cells := fun _ => 0
  mask := fun _ => true

theorem zeros_aligned : zeros.layout.Aligned (.numeric .four) { rows := morselSize + 1, persisted := 0 } := by
  have columnAligned := (ColumnData.empty_aligned (.numeric .four)).append (replicate (morselSize + 1) (some 4))
  have validityAligned := (ColumnData.empty_aligned .validity).append (replicate (morselSize + 1) (some 4))
  rw [length_replicate, zero_add] at columnAligned validityAligned
  exact ⟨columnAligned, validityAligned⟩

def sevenAt (morsel : Fin 2) : List (Action Nat MorselKey) := [
  .start,
  .update transactionIdStart (.data, morsel) History.firstRow { data := fun _ => 7, validity := none },
  .update transactionIdStart (.validity, morsel) History.firstRow
    { data := fun _ => 7, validity := none },
  .commit transactionIdStart none, .start]

def sevenHistory (morsel : Fin 2) : History Nat morselKind :=
  run (History.step zeros.vectorBase) (History.initial morselStart) (sevenAt morsel)

def sevenReader : Transaction where
  startTime := 2
  transactionId := transactionIdStart + 1
  commitId := 0
  highestActiveQuery := 0
  activeQuery := maximumQueryId

theorem sevenAt_timed (morsel : Fin 2) : Meets (History.step zeros.vectorBase) History.Timed
      (History.initial morselStart : History Nat morselKind) (sevenAt morsel) := by
  refine ⟨?_, trivial, trivial, ?_, ?_, trivial⟩
  · change _ + 1 < transactionIdStart
    decide
  · change _ + 1 < transactionIdStart
    revert morsel
    decide +kernel
  · change _ + 1 < transactionIdStart
    revert morsel
    decide +kernel

theorem sevenHistory_reader (morsel : Fin 2) :
    sevenReader ∈ (sevenHistory morsel).database.manager.activeTransactions := by
  revert morsel
  decide +kernel

theorem sevenHistory_fetchesAsScanned :
    zeros.FetchesAsScanned (morselSize + 1) (sevenHistory 0).database sevenReader 0 := by
  have inside : 0 < (RowCount.mk (morselSize + 1) 0).rows := Nat.succ_pos morselSize
  have member := sevenHistory_reader 0
  rw [sevenHistory] at member ⊢
  exact (fetchesAsScanned_iff (.numeric .four) zeros _ zeros_aligned (sevenAt 0) (sevenAt_timed 0)
    sevenReader member 0 inside).mpr (.inl morselSize_pos)

theorem sevenHistory_not_reached : ¬zeros.UpdatesReached (sevenHistory 1).recorded sevenReader morselSize := by
  rintro (first | unchanged)
  · exact absurd first (lt_irrefl _)
  · exact absurd unchanged (by decide +kernel)

/-- In the second one the scan reads the new value, and the fetch the stored one. -/
theorem not_fetchesAsScanned :
    ¬zeros.FetchesAsScanned (morselSize + 1) (sevenHistory 1).database sevenReader morselSize := by
  have inside : morselSize < (RowCount.mk (morselSize + 1) 0).rows := Nat.lt_succ_self morselSize
  have member := sevenHistory_reader 1
  have kept := History.run_tracks (sevenAt_timed 1)
  have notReached := sevenHistory_not_reached
  rw [sevenHistory] at member notReached ⊢
  intro fetches
  exact notReached ((fetchesAsScanned_iff_reached zeros_aligned kept.1 kept.2 member inside).mp
    fetches)

end ColumnCells

end GuinsooDB
