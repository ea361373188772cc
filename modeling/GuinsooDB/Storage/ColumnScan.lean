import GuinsooDB.Storage.ColumnCheckpoint

/-!
In every state that appends, reverted appends, updates, checkpoints and reloads lead to, the
segments of a column and of its validity column are aligned, a scan with
`ColumnScanState::Next` reads every row once, and the search of the segment tree finds the
one segment of every row.
-/

namespace GuinsooDB

open Extents Transition List Option ColumnSegment

namespace ScanPosition

variable {column : ColumnData} {kind : ColumnKind} {rows persisted row : Nat}
  {position : ScanPosition}

/-- The scan stands at the vector that starts at `row`, in the segments and in the update
segments. -/
structure Scanning (column : ColumnData) (position : ScanPosition) (row : Nat) : Prop where
  base : Stands start count standardVectorSize column.data
    position.current position.vectorIndex row
  updates : Stands UpdateMorsel.start UpdateMorsel.count standardVectorSize column.updates
    position.updates position.vectorIndexUpdates row

theorem stands_first {α : Type*} {start count : α → Nat} {extents : List α}
    (tiled : Tiled start count standardVectorSize extents) (some : 0 < stop count 0 extents) :
    Stands start count standardVectorSize extents extents 0 0 := by
  cases extents with
  | nil => exact absurd some (lt_irrefl 0)
  | cons extent rest =>
    have starts : start extent = 0 := tiled.contiguous.1
    refine ⟨[], extent, rest, rfl, rfl, by omega, ?_⟩
    cases rest with
    | nil =>
      change 0 < 0 + count extent at some
      omega
    | cons next later =>
      have nonempty : 0 < count extent := (tiled.whole extent (by rw [dropLast_cons_of_ne_nil (by simp)]; simp)).2
      omega

theorem initial_scanning (aligned : column.Aligned kind rows persisted) (some : 0 < rows) :
    Scanning column (initial column) 0 := by
  have partition : UpdateMorsel.Partition column.updates rows := by
    rcases aligned.updates with partition | ⟨-, noData⟩
    · exact partition
    · have stops := aligned.dataRows
      rw [noData, stop] at stops
      omega
  exact ⟨stands_first aligned.data (by rw [aligned.dataRows]; exact some),
    stands_first partition.tiled (by rw [partition.stops]; exact some)⟩

variable (scanning : Scanning column position row) (aligned : column.Aligned kind rows persisted)
include scanning aligned

theorem Scanning.partition : UpdateMorsel.Partition column.updates rows := by
  obtain ⟨front, morsel, later, split, -⟩ := scanning.updates.reached
  exact aligned.partition (by rw [split]; simp)

theorem Scanning.rows_eq : position.rows = some (range' row (min standardVectorSize (rows - row))) := by
  obtain ⟨segment, later, current, starts, count⟩ := scanning.base.rows aligned.data
  rw [ScanPosition.rows, current, head?_cons, map_some]
  dsimp only
  rw [starts, min_comm, count, aligned.dataRows]

theorem Scanning.updateRows_eq : position.updateRows = some (range' row (min standardVectorSize (rows - row))) := by
  have partition := scanning.partition aligned
  obtain ⟨morsel, later, updates, starts, count⟩ := scanning.updates.rows partition.tiled
  rw [ScanPosition.updateRows, updates, head?_cons, map_some]
  dsimp only
  rw [starts, min_comm, count, partition.stops]

theorem Scanning.base_next {segment : ColumnSegment} {later : List ColumnSegment}
    (current : position.current = segment :: later) (more : row + standardVectorSize < rows) :
    Stands start count standardVectorSize column.data
      (if segment.count ≤ (position.vectorIndex + 1) * standardVectorSize then later
        else segment :: later)
      (if segment.count ≤ (position.vectorIndex + 1) * standardVectorSize then 0
        else position.vectorIndex + 1) (row + standardVectorSize) := by
  obtain ⟨extent, rest, same, stays | leaves⟩ :=
    scanning.base.advance aligned.data (by rw [aligned.dataRows]; exact more)
  · rw [current] at same stays
    cases same
    rw [if_neg (by omega), if_neg (by omega)]
    exact stays.2
  · rw [current] at same
    cases same
    rw [if_pos (by omega), if_pos (by omega)]
    exact leaves.2.2

theorem Scanning.updates_next {morsel : UpdateMorsel} {later : List UpdateMorsel}
    (updates : position.updates = morsel :: later) (more : row + standardVectorSize < rows) :
    if morselVectorCount ≤ position.vectorIndexUpdates + 1 then
      Stands UpdateMorsel.start UpdateMorsel.count standardVectorSize column.updates later 0
        (row + standardVectorSize) else
      Stands UpdateMorsel.start UpdateMorsel.count standardVectorSize column.updates
        position.updates (position.vectorIndexUpdates + 1) (row + standardVectorSize) := by
  have partition := scanning.partition aligned
  have morselEnd : morselSize = morselVectorCount * standardVectorSize := by decide
  have bounded : morsel.count ≤ morselSize := by
    obtain ⟨front, _, _, split, same, -⟩ := scanning.updates.reached
    rw [updates] at same
    cases same
    exact partition.count_le morsel (by rw [split]; simp)
  obtain ⟨extent, rest, same, stays | leaves⟩ :=
    scanning.updates.advance partition.tiled (by rw [partition.stops]; exact more)
  · rw [updates] at same
    cases same
    rw [if_neg]
    · exact stays.2
    · intro crosses
      have := Nat.mul_le_mul_right standardVectorSize crosses
      omega
  · rw [updates] at same
    cases same
    obtain ⟨ends, notLast, stands⟩ := leaves
    -- only the last update segment can be smaller than a morsel
    have full : morsel.count = morselSize := by
      obtain ⟨front, _, _, split, found, -⟩ := scanning.updates.reached
      rw [updates] at found
      cases found
      refine partition.whole morsel ?_
      rw [split, dropLast_append_of_ne_nil (by simp), dropLast_cons_of_ne_nil notLast]
      simp
    have exactly : position.vectorIndexUpdates + 1 = morselVectorCount := by
      rw [full, morselEnd] at ends
      exact Nat.eq_of_mul_eq_mul_right (by decide) ends
    rw [if_pos (le_of_eq exactly.symm)]
    exact stands

theorem Scanning.next : ∃ moved, position.next = some moved ∧
      (row + standardVectorSize < rows → Scanning column moved (row + standardVectorSize)) := by
  obtain ⟨front, segment, later, split, current, -⟩ := scanning.base.reached
  obtain ⟨updateFront, morsel, updateLater, updateSplit, updates, -⟩ := scanning.updates.reached
  rw [ScanPosition.next, current]
  dsimp only
  by_cases crosses : morselVectorCount ≤ position.vectorIndexUpdates + 1
  · rw [if_pos crosses, updates]
    refine ⟨_, rfl, fun more => ⟨scanning.base_next aligned current more, ?_⟩⟩
    have moved := scanning.updates_next aligned updates more
    rw [if_pos crosses] at moved
    exact moved
  rw [if_neg crosses]
  refine ⟨_, rfl, fun more => ⟨scanning.base_next aligned current more, ?_⟩⟩
  have moved := scanning.updates_next aligned updates more
  rw [if_neg crosses] at moved
  exact moved

end ScanPosition

def VectorVisit.Agrees (visit : VectorVisit) : Prop :=
  visit.columnUpdates = visit.column ∧ visit.validity = visit.column ∧
    visit.validityUpdates = visit.column

def VectorVisit.At (rows first : Nat) (visit : VectorVisit) : Prop :=
  visit.column = range' first (min standardVectorSize (rows - first)) ∧ visit.Agrees

namespace ColumnScan

variable {kind : ColumnKind} {data : StandardColumnData} {rows persisted row : Nat}
  {scan : ColumnScan}

theorem visits_range {vectors : Nat} (aligned : data.column.Aligned kind rows persisted)
    (validity : data.validity.Aligned .validity rows persisted)
    (enough : vectors = vectorsFor (rows - row))
    (stands : row < rows → scan.column.Scanning data.column row ∧
      scan.validity.Scanning data.validity row) : ∃ seen, visits vectors scan = some seen ∧
      seen.flatMap VectorVisit.column = range' row (rows - row) ∧
        ∀ visit ∈ seen, ∃ vector, row + vector * standardVectorSize < rows ∧
          visit.At rows (row + vector * standardVectorSize) := by
  induction vectors generalizing row scan with
  | zero =>
    have none : rows - row = 0 := by
      have covered := le_vectorsFor (rows - row)
      rw [← enough] at covered
      omega
    rw [none]
    exact ⟨[], rfl, rfl, by simp⟩
  | succ vectors ih =>
    have before : row < rows := by
      by_contra past
      rw [Nat.sub_eq_zero_of_le (Nat.le_of_not_lt past)] at enough
      exact nomatch enough
    obtain ⟨column, validityColumn⟩ := stands before
    obtain ⟨movedColumn, columnNext, columnStands⟩ := column.next aligned
    obtain ⟨movedValidity, validityNext, validityStands⟩ := validityColumn.next validity
    have notEnded : scan.column.current ≠ [] := by
      obtain ⟨_, _, _, _, current, -⟩ := column.base.reached
      rw [current]
      simp
    have left : vectors = vectorsFor (rows - (row + standardVectorSize)) := by
      unfold vectorsFor standardVectorSize at *
      split at enough <;> split <;> omega
    let moved : ColumnScan := { column := movedColumn, validity := movedValidity }
    have onward : row + standardVectorSize < rows → moved.column.Scanning data.column (row + standardVectorSize) ∧
          moved.validity.Scanning data.validity (row + standardVectorSize) :=
      fun more => ⟨columnStands more, validityStands more⟩
    obtain ⟨seen, visited, ranges, agree⟩ := ih left onward
    rw [visits, visit, column.rows_eq aligned, column.updateRows_eq aligned,
      validityColumn.rows_eq validity, validityColumn.updateRows_eq validity, bind_some,
      bind_some, bind_some, map_some, bind_some, next,
      if_neg notEnded, columnNext, bind_some, validityNext, map_some,
      bind_some, visited, map_some]
    refine ⟨_, rfl, ?_, ?_⟩
    · rw [flatMap_cons, ranges]
      by_cases more : row + standardVectorSize ≤ rows
      · have split : rows - row = standardVectorSize + (rows - (row + standardVectorSize)) := by
          omega
        rw [min_eq_left (by omega), split, ← range'_append_1]
      · have none : rows - (row + standardVectorSize) = 0 := by omega
        rw [Nat.min_eq_right (by omega), none, range'_zero, append_nil]
    · intro visit member
      rcases mem_cons.mp member with rfl | later
      · exact ⟨0, by omega, by rw [zero_mul]; exact ⟨rfl, rfl, rfl, rfl⟩⟩
      obtain ⟨vector, inside, stands⟩ := agree visit later
      have shift : row + (vector + 1) * standardVectorSize =
          row + standardVectorSize + vector * standardVectorSize := by
        rw [Nat.succ_mul]
        omega
      exact ⟨vector + 1, by rw [shift]; exact inside, by rw [shift]; exact stands⟩

end ColumnScan

/-! Every history -/

structure RowCount where
  rows : Nat
  persisted : Nat
  deriving Repr, DecidableEq

namespace RowCount

def initial : RowCount where
  rows := 0
  persisted := 0

def step (count : RowCount) : ColumnOperation → RowCount
  | .append values => { count with rows := count.rows + values.length }
  | .revertAppend startRow => { count with rows := min count.rows startRow }
  | .update _ _ => count
  | .checkpoint _ => { count with persisted := count.rows }
  | .reload => { count with rows := count.persisted }

end RowCount

def ColumnData.rows (column : ColumnData) : Nat := stop count 0 column.data

def ColumnData.persisted (column : ColumnData) : Nat := stop DataPointer.tupleCount 0 column.disk

namespace StandardColumnData

/-- What the callers guarantee: an update is for a row of the column, and `RevertAppend`
follows an append and does not reach behind the last checkpoint, which runs only while no
transaction has changes to take back. -/
def Requested (data : StandardColumnData) : ColumnOperation → Prop
  | .update row _ => row < data.column.rows
  | .revertAppend startRow =>
    data.column.persisted ≤ startRow ∧ data.column.data ≠ [] ∧ data.validity.data ≠ []
  | _ => True

instance (data : StandardColumnData) (operation : ColumnOperation) :
    Decidable (Requested data operation) :=
  match operation with
  | .append _ => .isTrue trivial
  | .revertAppend _ => inferInstanceAs (Decidable (_ ∧ _ ∧ _))
  | .update _ _ => inferInstanceAs (Decidable (_ < _))
  | .checkpoint _ => .isTrue trivial
  | .reload => .isTrue trivial

structure Aligned (kind : ColumnKind) (data : StandardColumnData) (count : RowCount) : Prop where
  column : data.column.Aligned kind count.rows count.persisted
  validity : data.validity.Aligned .validity count.rows count.persisted

theorem step_aligned {kind : ColumnKind} (data : StandardColumnData) (count : RowCount)
    (operation : ColumnOperation) (aligned : Aligned kind data count)
    (requested : Requested data operation) :
    ∃ next, data.step kind operation = some next ∧ Aligned kind next (count.step operation) := by
  cases operation with
  | append values => exact ⟨_, rfl, aligned.column.append values, aligned.validity.append values⟩
  | revertAppend startRow =>
    obtain ⟨appended, columnNonempty, validityNonempty⟩ := requested
    have reaches : count.persisted ≤ startRow := by
      rw [← aligned.column.diskRows]
      exact appended
    obtain ⟨column, columnReverted, columnAligned, -⟩ := aligned.column.revertAppend reaches columnNonempty
    obtain ⟨validity, validityReverted, validityAligned, -⟩ := aligned.validity.revertAppend reaches validityNonempty
    refine ⟨{ column, validity }, ?_, columnAligned, validityAligned⟩
    rw [step, columnReverted, bind_some, validityReverted, map_some]
  | update row skipsValidity =>
    have inside : row < count.rows := by
      rw [← aligned.column.dataRows]
      exact requested
    obtain ⟨column, columnUpdated, columnAligned, -⟩ := aligned.column.update inside false
    obtain ⟨validity, validityUpdated, validityAligned, -⟩ := aligned.validity.update inside skipsValidity
    refine ⟨{ column, validity }, ?_, columnAligned, validityAligned⟩
    rw [step, columnUpdated, bind_some, validityUpdated, map_some]
  | checkpoint merged =>
    obtain ⟨column, columnWritten, columnAligned⟩ := aligned.column.checkpoint merged
    obtain ⟨validity, validityWritten, validityAligned⟩ := aligned.validity.checkpoint merged
    refine ⟨{ column, validity }, ?_, columnAligned, validityAligned⟩
    rw [step, columnWritten, bind_some, validityWritten, map_some]
  | reload => exact ⟨_, rfl, aligned.column.reload, aligned.validity.reload⟩

end StandardColumnData

/-- Alignment as it can be read off a column, with the searches that depend on it. -/
structure ColumnData.VectorAligned (column : ColumnData) (rows : Nat) : Prop where
  contiguous : Contiguous start count 0 column.data
  stops : stop count 0 column.data = rows
  whole : ∀ segment ∈ column.data.dropLast,
    standardVectorSize ∣ segment.start ∧ standardVectorSize ∣ segment.count
  updatesContiguous : Contiguous UpdateMorsel.start UpdateMorsel.count 0 column.updates
  updatesStop : stop UpdateMorsel.count 0 column.updates = rows
  morsels : ∀ morsel ∈ column.updates, morselSize ∣ morsel.start ∧ morsel.count ≤ morselSize
  fullMorsels : ∀ morsel ∈ column.updates.dropLast, morsel.count = morselSize
  found : ∀ row < rows, ∃ index segment, findColumnSegment column.data row = some index ∧
    column.data[index]? = some segment ∧ Holds start count segment row ∧
        ∀ other twin, column.data[other]? = some twin → Holds start count twin row → other = index
  foundUpdates : ∀ row < rows, ∃ index morsel, findUpdateMorsel column.updates row = some index ∧
    column.updates[index]? = some morsel ∧ Holds UpdateMorsel.start UpdateMorsel.count morsel row ∧
        ∀ other twin, column.updates[other]? = some twin →
          Holds UpdateMorsel.start UpdateMorsel.count twin row → other = index

variable {kind : ColumnKind}

theorem ColumnData.Aligned.vectorAligned {column : ColumnData}
    {rows persisted : Nat} (aligned : column.Aligned kind rows persisted) :
    column.VectorAligned rows := by
  have hasIndex : ∀ {α : Type} (front later : List α) (extent : α),
      (front ++ extent :: later)[front.length]? = some extent := by
    intro α front later extent
    rw [getElem?_append_right (le_refl _), Nat.sub_self]
    rfl
  have updates : Contiguous UpdateMorsel.start UpdateMorsel.count 0 column.updates ∧
      stop UpdateMorsel.count 0 column.updates = rows ∧
        (∀ morsel ∈ column.updates, morselSize ∣ morsel.start ∧ morsel.count ≤ morselSize) ∧
          ∀ morsel ∈ column.updates.dropLast, morsel.count = morselSize := by
    rcases aligned.updates with partition | ⟨none, noData⟩
    · refine ⟨partition.contiguous, partition.stops, ?_, partition.whole⟩
      intro morsel member
      refine ⟨?_, partition.count_le morsel member⟩
      obtain ⟨front, later, split⟩ := append_of_mem member
      rw [split] at partition
      exact partition.morselSize_dvd_start
    · have stops := aligned.dataRows
      rw [noData, stop] at stops
      rw [none, ← stops]
      exact ⟨trivial, rfl, by simp, by simp⟩
  refine
    { contiguous := aligned.data.contiguous
      stops := aligned.dataRows
      whole := ?_
      updatesContiguous := updates.1
      updatesStop := updates.2.1
      morsels := updates.2.2.1
      fullMorsels := updates.2.2.2
      found := ?_
      foundUpdates := ?_ }
  · intro segment member
    refine ⟨?_, (aligned.data.whole segment member).1⟩
    obtain ⟨front, later, split⟩ := append_of_mem (dropLast_subset _ member)
    have tiled := aligned.data
    rw [split] at tiled
    exact tiled.unit_dvd_start
  · intro row inside
    obtain ⟨front, segment, later, split, holds, found⟩ := aligned.find_segment inside
    have here : column.data[front.length]? = some segment := by
      rw [split]
      exact hasIndex front later segment
    exact ⟨front.length, segment, found, here, holds, fun other twin there twinHolds =>
      holds_unique aligned.data.contiguous there here twinHolds holds⟩
  · intro row inside
    obtain ⟨front, morsel, later, split, holds, found⟩ := aligned.find_update inside
    have here : column.updates[front.length]? = some morsel := by
      rw [split]
      exact hasIndex front later morsel
    exact ⟨front.length, morsel, found, here, holds, fun other twin there twinHolds =>
      holds_unique updates.1 there here twinHolds holds⟩

namespace StandardColumnData

/-- A scan of all vectors reads every row once, and in every vector the updates, the validity
mask and its updates are those of the rows that are read. -/
def ScansOnce (data : StandardColumnData) (rows : Nat) : Prop :=
  ∃ visits, ColumnScan.visits (vectorsFor rows) (.initial data) = some visits ∧
    visits.flatMap VectorVisit.column = range rows ∧ ∀ visit ∈ visits, visit.Agrees

variable {data : StandardColumnData} {count : RowCount}

theorem Aligned.visits (aligned : Aligned kind data count) :
    ∃ visits, ColumnScan.visits (vectorsFor count.rows) (.initial data) = some visits ∧
      visits.flatMap VectorVisit.column = range count.rows ∧
      ∀ visit ∈ visits, ∃ vector, vector * standardVectorSize < count.rows ∧
        visit.At count.rows (vector * standardVectorSize) := by
  have stands : 0 < count.rows → (ColumnScan.initial data).column.Scanning data.column 0 ∧
        (ColumnScan.initial data).validity.Scanning data.validity 0 :=
    fun some => ⟨ScanPosition.initial_scanning aligned.column some, ScanPosition.initial_scanning aligned.validity some⟩
  obtain ⟨visits, visited, ranges, agree⟩ := ColumnScan.visits_range aligned.column aligned.validity rfl stands
  simp only [zero_add] at agree
  refine ⟨visits, visited, ?_, agree⟩
  rw [ranges, range_eq_range', Nat.sub_zero]

theorem Aligned.scansOnce (aligned : Aligned kind data count) : ScansOnce data count.rows := by
  obtain ⟨visits, visited, ranges, stands⟩ := aligned.visits
  refine ⟨visits, visited, ranges, fun visit member => ?_⟩
  obtain ⟨_, _, _, agrees⟩ := stands visit member
  exact agrees

theorem empty_aligned (kind : ColumnKind) : Aligned kind empty .initial :=
  ⟨ColumnData.empty_aligned kind, ColumnData.empty_aligned .validity⟩

/-- Every history of a column has a result, in which the column and its validity column hold
the rows that were appended and not taken back, in aligned segments. -/
theorem run_vectorAligned (kind : ColumnKind) (operations : List ColumnOperation)
    (requested : MeetsPartial (step kind) Requested empty operations) :
    ∃ data, runPartial (step kind) empty operations = some data ∧
      data.column.VectorAligned (run RowCount.step .initial operations).rows ∧
      data.validity.VectorAligned (run RowCount.step .initial operations).rows ∧
      data.ScansOnce (run RowCount.step .initial operations).rows := by
  obtain ⟨data, ran, aligned⟩ :=
    runPartial_refines step_aligned (empty_aligned kind) requested
  exact ⟨data, ran, aligned.column.vectorAligned, aligned.validity.vectorAligned, aligned.scansOnce⟩

def mixedHistory : List ColumnOperation :=
  [.append [some 3, none, some 5], .append [some 20000, some 1], .update 1 true, .revertAppend 4,
    .checkpoint fun _ => some 7, .update 0 false, .checkpoint fun _ => none, .reload,
    .append [none, none]]

theorem mixedHistory_vectorAligned : MeetsPartial (step .string) Requested empty mixedHistory ∧
      (run RowCount.step .initial mixedHistory).rows = 6 ∧
      ∃ data, runPartial (step .string) empty mixedHistory = some data ∧
        data.column.VectorAligned 6 ∧ data.validity.VectorAligned 6 ∧ data.ScansOnce 6 := by
  have requested : MeetsPartial (step .string) Requested empty mixedHistory := by
    refine meetsPartial_of_check (fun data operation => of_decide_eq_true) ?_
    decide +kernel
  exact ⟨requested, rfl, run_vectorAligned .string mixedHistory requested⟩

end StandardColumnData

end GuinsooDB
