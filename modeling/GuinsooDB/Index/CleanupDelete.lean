import GuinsooDB.Index.TableIndex
import GuinsooDB.Storage.ColumnScan
import GuinsooDB.Version.DeleteIds

/-!
The cleanup of the deletes of a transaction that no other transaction needs to see any more: the
deleted rows are removed from the indexes of their tables. They are collected into batches, and
the keys of a batch are computed from one vector of the table.
-/

namespace GuinsooDB

open List Function

/-! Fetching a vector -/

def segmentVector (data : List ColumnSegment) (row : Nat) : Option Nat :=
  (findColumnSegment data row).bind fun index =>
    data[index]?.map fun segment =>
      segment.start + (row - segment.start) / standardVectorSize * standardVectorSize

def updateVector (updates : List UpdateMorsel) (row : Nat) : Option Nat :=
  (findUpdateMorsel updates row).bind fun index =>
    updates[index]?.map fun morsel =>
      morsel.start + (row - morsel.start) / standardVectorSize * standardVectorSize

structure CommittedColumn (V : Type) where
  layout : StandardColumnData
  cells : Nat → V
  mask : Nat → Bool
  updates : Nat → Option V
  validityUpdates : Nat → Option Bool

namespace CommittedColumn

variable {V : Type}

def fetch (column : CommittedColumn V) (row : Nat) : Option (Nat → Option V) := do
  let validityBase ← segmentVector column.layout.validity.data row
  let validityUpdateBase ← updateVector column.layout.validity.updates row
  let base ← segmentVector column.layout.column.data row
  let updateBase ← updateVector column.layout.column.updates row
  some fun slot =>
    if (column.validityUpdates (validityUpdateBase + slot)).getD (column.mask (validityBase + slot))
    then some ((column.updates (updateBase + slot)).getD (column.cells (base + slot)))
    else none

def value (column : CommittedColumn V) (row : Nat) : Option V :=
  if (column.validityUpdates row).getD (column.mask row)
  then some ((column.updates row).getD (column.cells row))
  else none

end CommittedColumn

structure IndexedTable (V : Type) where
  columns : List (CommittedColumn V)
  indexes : List (TableIndex (List (Option V)))

namespace IndexedTable

variable {V : Type}

def fetchAll (columns : List (CommittedColumn V)) (row : Nat) :
    Option (List (Nat → Option V)) :=
  match columns with
  | [] => some []
  | column :: rest => do
      let vector ← column.fetch row
      let vectors ← fetchAll rest row
      some (vector :: vectors)

/-- `DataTable::RemoveFromIndexes` for row ids: the rows are looked up in the vector of the first
one. -/
def removeFromIndexes (table : IndexedTable V) (rowIds : List Nat) : Option (IndexedTable V) :=
  match rowIds with
  | [] => some table
  | firstId :: _ =>
    (fetchAll table.columns firstId).map fun vectors =>
      let rows := rowIds.map fun id =>
        (vectors.map fun vector => vector (id % standardVectorSize), id)
      { table with indexes := table.indexes.map fun index => index.delete rows }

end IndexedTable

/-! Collecting the rows -/

/-- The rows that have been collected for a table, and the calls of `RemoveFromIndexes` that have
been made for the batches before. -/
structure CleanupState (T : Type) where
  currentTable : Option T
  rowNumbers : List Nat
  calls : List (T × List Nat)

namespace CleanupState

variable {T : Type} [DecidableEq T]

def initial : CleanupState T where
  currentTable := none
  rowNumbers := []
  calls := []

def flush (state : CleanupState T) : CleanupState T :=
  match state.currentTable, state.rowNumbers with
  | none, _ | _, [] => state
  | some table, rowNumbers =>
    { state with rowNumbers := [], calls := state.calls ++ [(table, rowNumbers)] }

def addRow (state : CleanupState T) (row : Nat) : CleanupState T :=
  let room := if state.rowNumbers.length = standardVectorSize then state.flush else state
  { room with rowNumbers := room.rowNumbers ++ [row] }

def cleanupDelete (hasIndexes : T → Bool) (state : CleanupState T) (entry : T × DeleteInfo) :
    CleanupState T :=
  if !hasIndexes entry.1 then state
  else
    let current :=
      if state.currentTable ≠ some entry.1 then
        { state.flush with currentTable := some entry.1 }
      else state
    (DeleteInfo.rowNumbers [entry.2]).foldl addRow current

/-- `UndoBuffer::Cleanup`. The rows that are left are flushed when the state goes out of scope. -/
def batches (hasIndexes : T → Bool) (entries : List (T × DeleteInfo)) : List (T × List Nat) :=
  (entries.foldl (cleanupDelete hasIndexes) initial).flush.calls

def rowsIn (table : T) (calls : List (T × List Nat)) : List Nat :=
  calls.flatMap fun call => if call.1 = table then call.2 else []

def allRows (state : CleanupState T) (table : T) : List Nat :=
  rowsIn table state.calls ++ if state.currentTable = some table then state.rowNumbers else []

structure Sound (state : CleanupState T) : Prop where
  idle : state.currentTable = none → state.rowNumbers = []
  nonempty : ∀ call ∈ state.calls, call.2 ≠ []

variable {state : CleanupState T}

theorem flush_spec (sound : state.Sound) : state.flush.Sound ∧ state.flush.rowNumbers = [] ∧
      state.flush.currentTable = state.currentTable ∧
      ∀ table, state.flush.allRows table = state.allRows table := by
  rcases state with ⟨_ | current, _ | ⟨row, rest⟩, calls⟩
  · exact ⟨sound, rfl, rfl, fun _ => rfl⟩
  · exact nomatch sound.idle rfl
  · exact ⟨sound, rfl, rfl, fun _ => rfl⟩
  refine ⟨⟨nofun, ?_⟩, rfl, rfl, ?_⟩
  · intro call member
    rcases mem_append.mp member with old | new
    · exact sound.nonempty call old
    · rw [mem_singleton.mp new]
      exact cons_ne_nil row rest
  · intro table
    change rowsIn table (calls ++ [(current, row :: rest)]) ++ _ = rowsIn table calls ++ _
    by_cases same : current = table <;> simp [rowsIn, same, flush]

variable {current : T}

theorem addRow_spec (sound : state.Sound) (here : state.currentTable = some current) {row : Nat} :
    (state.addRow row).Sound ∧ (state.addRow row).currentTable = some current ∧
      ∀ table, (state.addRow row).allRows table = state.allRows table ++ if table = current then [row] else [] := by
  obtain ⟨flushSound, -, flushCurrent, flushRows⟩ := flush_spec sound
  rw [addRow]
  generalize choice : (if state.rowNumbers.length = standardVectorSize then state.flush else state) = room
  have roomSpec : room.Sound ∧ room.currentTable = some current ∧
      ∀ table, room.allRows table = state.allRows table := by
    split at choice
    · subst choice
      exact ⟨flushSound, flushCurrent.trans here, flushRows⟩
    · subst choice
      exact ⟨sound, here, fun _ => rfl⟩
  obtain ⟨roomSound, roomCurrent, roomRows⟩ := roomSpec
  refine ⟨⟨?_, roomSound.nonempty⟩, roomCurrent, ?_⟩
  · intro absent
    exact nomatch absent.symm.trans roomCurrent
  intro table
  rw [← roomRows table, allRows, allRows]
  rw [roomCurrent, append_assoc]
  by_cases same : table = current
  · simp [same]
  · have other : ¬some current = some table := fun equal => same (Option.some.inj equal).symm
    simp [same, other]

theorem addRows_spec (sound : state.Sound) (here : state.currentTable = some current) {rows : List Nat} :
    (rows.foldl addRow state).Sound ∧ (rows.foldl addRow state).currentTable = some current ∧
      ∀ table, (rows.foldl addRow state).allRows table =
        state.allRows table ++ if table = current then rows else [] := by
  induction rows generalizing state with
  | nil => exact ⟨sound, here, by simp⟩
  | cons row rest ih =>
    obtain ⟨nextSound, nextHere, nextRows⟩ := addRow_spec sound here
    obtain ⟨lastSound, lastHere, lastRows⟩ := ih nextSound nextHere
    refine ⟨lastSound, lastHere, fun table => ?_⟩
    rw [foldl_cons, lastRows, nextRows]
    by_cases same : table = current <;> simp [same]

def rowsFor (hasIndexes : T → Bool) (table : T) (entry : T × DeleteInfo) : List Nat :=
  if entry.1 = table ∧ hasIndexes table then DeleteInfo.rowNumbers [entry.2] else []

variable {hasIndexes : T → Bool}

theorem cleanupDelete_spec (sound : state.Sound) {entry : T × DeleteInfo} :
    (state.cleanupDelete hasIndexes entry).Sound ∧ ∀ table, (state.cleanupDelete hasIndexes entry).allRows table =
        state.allRows table ++ rowsFor hasIndexes table entry := by
  rw [cleanupDelete]
  by_cases indexed : hasIndexes entry.1
  · have switched : ∃ current : CleanupState T, (if state.currentTable ≠ some entry.1 then
            { state.flush with currentTable := some entry.1 } else state) = current ∧
          current.Sound ∧ current.currentTable = some entry.1 ∧
          ∀ table, current.allRows table = state.allRows table := by
      by_cases same : state.currentTable = some entry.1
      · exact ⟨state, if_neg (not_not_intro same), sound, same, fun _ => rfl⟩
      obtain ⟨flushSound, flushIdle, -, flushRows⟩ := flush_spec sound
      refine ⟨_, if_pos same, ⟨nofun, flushSound.nonempty⟩, rfl, ?_⟩
      intro table
      rw [← flushRows table, allRows, allRows, flushIdle]
      simp
    obtain ⟨current, chosen, currentSound, here, currentRows⟩ := switched
    obtain ⟨lastSound, -, lastRows⟩ := addRows_spec currentSound here
    have skip : ¬(!hasIndexes entry.1) = true := by simp [indexed]
    rw [if_neg skip]
    rw [chosen]
    refine ⟨lastSound, fun table => ?_⟩
    rw [lastRows, currentRows, rowsFor]
    by_cases same : table = entry.1
    · simp [same, indexed]
    · have other : ¬entry.1 = table := fun equal => same equal.symm
      simp [same, other]
  · have skip : (!hasIndexes entry.1) = true := by simp [indexed]
    rw [if_pos skip]
    refine ⟨sound, fun table => ?_⟩
    rw [rowsFor, if_neg, append_nil]
    rintro ⟨rfl, has⟩
    exact indexed has

theorem batches_spec {entries : List (T × DeleteInfo)} :
    (∀ call ∈ batches hasIndexes entries, call.2 ≠ []) ∧ ∀ table, rowsIn table (batches hasIndexes entries) =
        entries.flatMap (rowsFor hasIndexes table) := by
  have run : ∀ (state : CleanupState T), state.Sound → (entries.foldl (cleanupDelete hasIndexes) state).Sound ∧
        ∀ table, (entries.foldl (cleanupDelete hasIndexes) state).allRows table =
          state.allRows table ++ entries.flatMap (rowsFor hasIndexes table) := by
    induction entries with
    | nil => exact fun state sound => ⟨sound, by simp⟩
    | cons entry rest ih =>
      intro state sound
      obtain ⟨nextSound, nextRows⟩ := cleanupDelete_spec sound
      obtain ⟨lastSound, lastRows⟩ := ih _ nextSound
      refine ⟨lastSound, fun table => ?_⟩
      rw [foldl_cons, lastRows, nextRows, flatMap_cons, append_assoc]
  obtain ⟨sound, rows⟩ := run initial ⟨fun _ => rfl, by simp [initial]⟩
  obtain ⟨flushSound, flushIdle, -, flushRows⟩ := flush_spec sound
  refine ⟨flushSound.nonempty, fun table => ?_⟩
  have whole := (flushRows table).trans (rows table)
  rw [allRows, flushIdle, ite_self, append_nil] at whole
  exact whole

end CleanupState

/-! The vector of a row -/

variable {row : Nat}

theorem vectorStart_eq {start : Nat} (divides : standardVectorSize ∣ start) (after : start ≤ row) :
    start + (row - start) / standardVectorSize * standardVectorSize =
      row / standardVectorSize * standardVectorSize := by
  obtain ⟨count, rfl⟩ := divides
  obtain ⟨rest, rfl⟩ := Nat.exists_eq_add_of_le after
  rw [Nat.add_sub_cancel_left, Nat.mul_add_div (by decide), Nat.add_mul, mul_comm count]

section

variable {kind : ColumnKind} {column : ColumnData} {rows persisted row : Nat}
  (aligned : column.Aligned kind rows persisted) (inside : row < rows)
include aligned inside

theorem segmentVector_eq : segmentVector column.data row = some (row / standardVectorSize * standardVectorSize) := by
  obtain ⟨front, segment, later, split, holds, found⟩ := aligned.find_segment inside
  have tiled := aligned.data
  rw [split] at tiled
  have here : column.data[front.length]? = some segment := by
    rw [split, getElem?_append_right (le_refl _), Nat.sub_self]
    rfl
  rw [segmentVector, found, Option.bind_some, here, Option.map_some, vectorStart_eq tiled.unit_dvd_start holds.1]

theorem updateVector_eq : updateVector column.updates row = some (row / standardVectorSize * standardVectorSize) := by
  obtain ⟨front, morsel, later, split, holds, found⟩ := aligned.find_update inside
  have here : column.updates[front.length]? = some morsel := by
    rw [split, getElem?_append_right (le_refl _), Nat.sub_self]
    rfl
  have partition := aligned.partition (by rw [split]; simp)
  rw [split] at partition
  have divides : standardVectorSize ∣ morsel.start :=
    Nat.dvd_trans ⟨morselVectorCount, mul_comm _ _⟩ partition.morselSize_dvd_start
  rw [updateVector, found, Option.bind_some, here, Option.map_some, vectorStart_eq divides holds.1]

end

theorem CommittedColumn.fetch_eq {V : Type} {kind : ColumnKind} {column : CommittedColumn V}
    {count : RowCount} (aligned : column.layout.Aligned kind count)
    (inside : row < count.rows) :
    column.fetch row = some fun slot => column.value (row / standardVectorSize * standardVectorSize + slot) := by
  rw [fetch, segmentVector_eq aligned.validity inside, updateVector_eq aligned.validity inside,
    segmentVector_eq aligned.column inside, updateVector_eq aligned.column inside]
  rfl

namespace IndexedTable

variable {V : Type} {table : IndexedTable V} {rows : Nat}

def rowAt (table : IndexedTable V) (row : Nat) : List (Option V) :=
  table.columns.map fun column => column.value row

def HasRows (table : IndexedTable V) (rows : Nat) : Prop :=
  ∀ column ∈ table.columns, ∃ kind persisted, column.layout.Aligned kind { rows, persisted }

theorem fetchAll_eq {columns : List (CommittedColumn V)}
    (hasRows : ∀ column ∈ columns, ∃ kind persisted, column.layout.Aligned kind { rows, persisted })
    (inside : row < rows) :
    fetchAll columns row = some (columns.map fun column slot =>
      column.value (row / standardVectorSize * standardVectorSize + slot)) := by
  induction columns with
  | nil => rfl
  | cons column rest ih =>
    obtain ⟨kind, persisted, aligned⟩ := hasRows column mem_cons_self
    rw [fetchAll, CommittedColumn.fetch_eq aligned inside,
      ih fun other member => hasRows other (mem_cons_of_mem _ member)]
    rfl

def slotOf (firstId id : Nat) : Nat :=
  firstId / standardVectorSize * standardVectorSize + id % standardVectorSize

def looked (table : IndexedTable V) (rowIds : List Nat) : List (List (Option V) × Nat) :=
  rowIds.map fun id => (table.rowAt (slotOf (rowIds.headD 0) id), id)

def without (table : IndexedTable V) (removed : List (List (Option V) × Nat)) : IndexedTable V :=
  { table with indexes := table.indexes.map fun index => index.delete removed }

theorem without_nil (table : IndexedTable V) : table.without [] = table := by
  simp [without, TableIndex.delete, TableIndex.keyed, Contents.eraseRows]

theorem without_append (table : IndexedTable V) (first second : List (List (Option V) × Nat)) :
    table.without (first ++ second) = (table.without first).without second := by
  simp [without, TableIndex.delete, TableIndex.keyed, Contents.eraseRows_append]

theorem removeFromIndexes_eq {rowIds : List Nat} (hasRows : table.HasRows rows)
    (inside : ∀ id ∈ rowIds, id < rows) (nonempty : rowIds ≠ []) :
    table.removeFromIndexes rowIds = some (table.without (table.looked rowIds)) := by
  cases rowIds with
  | nil => exact absurd rfl nonempty
  | cons firstId rest =>
    rw [removeFromIndexes, fetchAll_eq hasRows (inside firstId mem_cons_self), Option.map_some, without, looked]
    simp only [map_map, headD_cons, slotOf, rowAt]
    rfl

end IndexedTable

/-! The whole cleanup -/

namespace CleanupState

variable {T V : Type} [DecidableEq T]

def remove (tables : T → IndexedTable V) (call : T × List Nat) : Option (T → IndexedTable V) :=
  ((tables call.1).removeFromIndexes call.2).map (update tables call.1)

def cleanup (tables : T → IndexedTable V) (entries : List (T × DeleteInfo)) :
    Option (T → IndexedTable V) :=
  (batches (fun table => !(tables table).indexes.isEmpty) entries).foldlM remove tables

def requests (source : IndexedTable V) (table : T) (calls : List (T × List Nat)) :
    List (List (Option V) × Nat) :=
  calls.flatMap fun call => if call.1 = table then source.looked call.2 else []

variable {calls : List (T × List Nat)}

theorem removeAll_eq {tables : T → IndexedTable V} {rows : T → Nat}
    (hasRows : ∀ table, (tables table).HasRows (rows table))
    (inside : ∀ call ∈ calls, call.2 ≠ [] ∧ ∀ id ∈ call.2, id < rows call.1) :
    calls.foldlM remove tables = some fun table => (tables table).without (requests (tables table) table calls) := by
  induction calls generalizing tables with
  | nil =>
    exact congrArg some (funext fun table => ((tables table).without_nil).symm)
  | cons call rest ih =>
    obtain ⟨nonempty, below⟩ := inside call mem_cons_self
    let next := update tables call.1 ((tables call.1).without ((tables call.1).looked call.2))
    have removed : remove tables call = some next := by
      rw [remove, IndexedTable.removeFromIndexes_eq (hasRows call.1) below nonempty]
      rfl
    have nextTable : ∀ table, next table = (tables table).without
        (if call.1 = table then (tables table).looked call.2 else []) := by
      intro table
      by_cases same : table = call.1
      · subst same
        rw [if_pos rfl]
        exact update_self ..
      · rw [if_neg fun equal => same equal.symm, IndexedTable.without_nil]
        exact update_of_ne same ..
    have nextRows : ∀ table, (next table).HasRows (rows table) := by
      intro table
      rw [nextTable]
      exact hasRows table
    rw [foldlM_cons, removed]
    refine (ih nextRows fun other member => inside other (mem_cons_of_mem _ member)).trans ?_
    refine congrArg some (funext fun table => ?_)
    rw [nextTable, requests, requests, flatMap_cons, IndexedTable.without_append]
    rfl

def deletedRows (table : T) (entries : List (T × DeleteInfo)) : List Nat :=
  entries.flatMap fun entry => if entry.1 = table then DeleteInfo.rowNumbers [entry.2] else []

def LostExactly (source : IndexedTable V) (deleted : List Nat)
    (before after : TableIndex (List (Option V))) : Prop :=
  ∀ key row, row ∈ after.contents key ↔ row ∈ before.contents key ∧
    ¬∃ id ∈ deleted, row = (id : Int) ∧ before.key (source.rowAt id) = some key

def CleansExactly (tables : T → IndexedTable V) (entries : List (T × DeleteInfo)) : Prop :=
  ∃ after, cleanup tables entries = some after ∧ ∀ table,
    List.Forall₂ (LostExactly (tables table) (deletedRows table entries))
      (tables table).indexes (after table).indexes

/-- The deleted rows exist, every row is deleted once, and the indexes have the entries of the
rows: no other keys for a row, and those of the deleted rows. -/
structure Indexed (table : IndexedTable V) (rows : Nat) (deleted : List Nat) : Prop where
  hasRows : table.HasRows rows
  inside : ∀ id ∈ deleted, id < rows
  distinct : deleted.Nodup
  simple : ∀ index ∈ table.indexes, index.contents.Simple
  sound : ∀ index ∈ table.indexes, ∀ key row, row ∈ index.contents key →
    ∃ id : Nat, row = id ∧ index.key (table.rowAt id) = some key
  complete : ∀ index ∈ table.indexes, ∀ id ∈ deleted, ∀ key,
    index.key (table.rowAt id) = some key → (id : Int) ∈ index.contents key

def batchesOf (tables : T → IndexedTable V) (entries : List (T × DeleteInfo)) :
    List (T × List Nat) :=
  batches (fun table => !(tables table).indexes.isEmpty) entries

/-- In every batch, a row with a key has the same key as the row at its position in the vector of
the first row of the batch. -/
def KeysFound (tables : T → IndexedTable V) (entries : List (T × DeleteInfo)) : Prop :=
  ∀ call ∈ batchesOf tables entries, ∀ index ∈ (tables call.1).indexes, ∀ id ∈ call.2, ∀ key,
    index.key ((tables call.1).rowAt id) = some key →
      index.key ((tables call.1).rowAt (IndexedTable.slotOf (call.2.headD 0) id)) = some key

variable {tables : T → IndexedTable V} {rows : T → Nat} {entries : List (T × DeleteInfo)} {table : T}

theorem rowsIn_batchesOf (indexed : (tables table).indexes ≠ []) :
    rowsIn table (batchesOf tables entries) = deletedRows table entries := by
  rw [batchesOf, (batches_spec).2 table, deletedRows]
  refine flatMap_congr fun entry _ => ?_
  simp [rowsFor, indexed]

theorem mem_rowsIn {id : Nat} : id ∈ rowsIn table calls ↔ ∃ call ∈ calls, call.1 = table ∧ id ∈ call.2 := by
  rw [rowsIn, mem_flatMap]
  refine exists_congr fun call => and_congr_right fun _ => ?_
  by_cases same : call.1 = table <;> simp [same]

variable {call : T × List Nat}

theorem batchesOf_indexed (member : call ∈ batchesOf tables entries) : (tables call.1).indexes ≠ [] := by
  obtain ⟨id, inCall⟩ := exists_mem_of_ne_nil _ ((batches_spec).1 call member)
  have listed : id ∈ rowsIn call.1 (batchesOf tables entries) := mem_rowsIn.mpr ⟨call, member, rfl, inCall⟩
  rw [batchesOf, (batches_spec).2 call.1, mem_flatMap] at listed
  obtain ⟨entry, -, found⟩ := listed
  rw [rowsFor] at found
  split at found
  · next here => simpa using here.2
  · exact nomatch found

theorem mem_deletedRows (member : call ∈ batchesOf tables entries) {id : Nat}
    (inCall : id ∈ call.2) : id ∈ deletedRows call.1 entries := by
  rw [← rowsIn_batchesOf (batchesOf_indexed member)]
  exact mem_rowsIn.mpr ⟨call, member, rfl, inCall⟩

theorem batch_unique (distinct : (rowsIn table calls).Nodup)
    {first second : T × List Nat} (firstMember : first ∈ calls) (secondMember : second ∈ calls)
    (firstTable : first.1 = table) (secondTable : second.1 = table) {id : Nat}
    (inFirst : id ∈ first.2) (inSecond : id ∈ second.2) : first = second := by
  induction calls with
  | nil => exact nomatch firstMember
  | cons call rest ih =>
    rw [rowsIn, flatMap_cons] at distinct
    have apart := disjoint_of_nodup_append distinct
    have later : (rowsIn table rest).Nodup := distinct.of_append_right
    rcases mem_cons.mp firstMember with rfl | firstLater
    · rcases mem_cons.mp secondMember with rfl | secondLater
      · rfl
      · rw [if_pos firstTable] at apart
        exact (apart inFirst (mem_rowsIn.mpr ⟨second, secondLater, secondTable, inSecond⟩)).elim
    · rcases mem_cons.mp secondMember with rfl | secondLater
      · rw [if_pos secondTable] at apart
        exact (apart inSecond (mem_rowsIn.mpr ⟨first, firstLater, firstTable, inFirst⟩)).elim
      · exact ih later firstLater secondLater

variable {key : List Byte} {row : Int}

theorem mem_keyed_requests {source : IndexedTable V} {index : TableIndex (List (Option V))} :
    (some key, row) ∈ index.keyed (requests source table calls) ↔
      ∃ call ∈ calls, call.1 = table ∧ ∃ id ∈ call.2, row = (id : Int) ∧
        index.key (source.rowAt (IndexedTable.slotOf (call.2.headD 0) id)) = some key := by
  rw [TableIndex.keyed, requests, mem_map]
  constructor
  · rintro ⟨⟨values, id⟩, member, same⟩
    obtain ⟨call, inCalls, found⟩ := mem_flatMap.mp member
    split at found
    · next here =>
        obtain ⟨other, inCall, equal⟩ := mem_map.mp found
        cases equal
        obtain ⟨keySame, rowSame⟩ := Prod.mk.inj same
        exact ⟨call, inCalls, here, id, inCall, rowSame.symm, keySame⟩
    · cases found
  · rintro ⟨call, inCalls, here, id, inCall, rfl, found⟩
    refine ⟨(source.rowAt (IndexedTable.slotOf (call.2.headD 0) id), id), ?_, ?_⟩
    · refine mem_flatMap.mpr ⟨call, inCalls, ?_⟩
      rw [if_pos here]
      exact mem_map.mpr ⟨id, inCall, rfl⟩
    · exact congrArg (·, (id : Int)) found

section

variable (indexed : ∀ table, Indexed (tables table) (rows table) (deletedRows table entries))
include indexed

theorem cleanup_eq : cleanup tables entries = some fun table =>
      (tables table).without (requests (tables table) table (batchesOf tables entries)) := by
  refine removeAll_eq (fun table => (indexed table).hasRows) ?_
  intro call member
  exact ⟨(batches_spec).1 call member, fun id inCall => (indexed call.1).inside id (mem_deletedRows member inCall)⟩

theorem cleansExactly_iff_lost : CleansExactly tables entries ↔ ∀ table, ∀ index ∈ (tables table).indexes,
      LostExactly (tables table) (deletedRows table entries) index
        (index.delete (requests (tables table) table (batchesOf tables entries))) := by
  rw [CleansExactly, cleanup_eq indexed]
  constructor
  · rintro ⟨after, equal, exactly⟩ table
    cases equal
    have indexes := exactly table
    change List.Forall₂ _ _ ((tables table).indexes.map _) at indexes
    rw [forall₂_map_right_iff, forall₂_same] at indexes
    exact indexes
  · intro exactly
    refine ⟨_, rfl, fun table => ?_⟩
    change List.Forall₂ _ _ ((tables table).indexes.map _)
    rw [forall₂_map_right_iff, forall₂_same]
    exact exactly table

theorem keysFound_of_cleansExactly (cleans : CleansExactly tables entries) : KeysFound tables entries := by
  have exactly := (cleansExactly_iff_lost indexed).mp cleans
  intro call member index inIndexes id inCall key hasKey
  have deleted := mem_deletedRows member inCall
  have present := (indexed call.1).complete index inIndexes id deleted key hasKey
  have gone := (exactly call.1 index inIndexes key id).not.mpr fun kept => kept.2 ⟨id, deleted, rfl, hasKey⟩
  rw [TableIndex.delete, Contents.mem_eraseRows ((indexed call.1).simple index inIndexes)] at gone
  have requested := not_not.mp fun absent => gone ⟨present, absent⟩
  obtain ⟨other, otherMember, sameTable, otherId, inOther, sameId, found⟩ := mem_keyed_requests.mp requested
  have equal : otherId = id := (Int.ofNat.inj sameId).symm
  subst equal
  have distinct : (rowsIn call.1 (batchesOf tables entries)).Nodup := by
    rw [rowsIn_batchesOf (batchesOf_indexed member)]
    exact (indexed call.1).distinct
  cases batch_unique distinct member otherMember rfl sameTable inCall inOther
  exact found

end

/-- The cleanup removes from every index exactly the entries of the deleted rows if and only if
the keys are found in every batch. -/
theorem cleansExactly_iff (tables : T → IndexedTable V) (rows : T → Nat)
    (entries : List (T × DeleteInfo))
    (indexed : ∀ table, Indexed (tables table) (rows table) (deletedRows table entries)) :
    CleansExactly tables entries ↔ KeysFound tables entries := by
  refine ⟨keysFound_of_cleansExactly indexed, fun found => ?_⟩
  rw [cleansExactly_iff_lost indexed]
  intro table index inIndexes key row
  rw [TableIndex.delete, Contents.mem_eraseRows ((indexed table).simple index inIndexes)]
  refine and_congr_right fun present => not_congr ?_
  rw [mem_keyed_requests]
  constructor
  · rintro ⟨call, member, rfl, id, inCall, rfl, -⟩
    obtain ⟨other, same, hasKey⟩ := (indexed call.1).sound index inIndexes key id present
    cases Int.ofNat.inj same
    exact ⟨id, mem_deletedRows member inCall, rfl, hasKey⟩
  · rintro ⟨id, deleted, rfl, hasKey⟩
    rw [← rowsIn_batchesOf (ne_nil_of_mem inIndexes)] at deleted
    obtain ⟨call, member, rfl, inCall⟩ := mem_rowsIn.mp deleted
    exact ⟨call, member, rfl, id, inCall, rfl, found call member index inIndexes id inCall key hasKey⟩

/-! A table of numbers with one index -/

def numberKey (number : Nat) : List Byte := [byteOf (number / 256), byteOf number]

def numbersColumn (count : Nat) : CommittedColumn Nat where
  layout :=
    { column := ColumnData.empty.append (.numeric .four) (List.replicate count (some 4))
      validity := ColumnData.empty.append .validity (List.replicate count (some 4)) }
  cells := id
  mask := fun _ => true
  updates := fun _ => none
  validityUpdates := fun _ => none

def numbersIndex (count : Nat) : TableIndex (List (Option Nat)) where
  unique := false
  key := fun values => values.head?.join.map numberKey
  contents := fun key => ((List.range count).filter fun row => numberKey row = key).map Nat.cast

def numbers (count : Nat) : IndexedTable Nat where
  columns := [numbersColumn count]
  indexes := [numbersIndex count]

variable {count : Nat}

theorem mem_numbersIndex :
    row ∈ (numbersIndex count).contents key ↔ ∃ id : Nat, id < count ∧ numberKey id = key ∧ row = id := by
  simp only [numbersIndex, mem_map, mem_filter, mem_range, decide_eq_true_eq]
  constructor
  · rintro ⟨id, ⟨inside, equal⟩, rfl⟩
    exact ⟨id, inside, equal, rfl⟩
  · rintro ⟨id, inside, equal, rfl⟩
    exact ⟨id, ⟨inside, equal⟩, rfl⟩

theorem numbers_indexed {deleted : List Nat} (inside : ∀ id ∈ deleted, id < count)
    (distinct : deleted.Nodup) : Indexed (numbers count) count deleted where
  hasRows := by
    intro column member
    cases mem_singleton.mp member
    have columnAligned := (ColumnData.empty_aligned (.numeric .four)).append (replicate count (some 4))
    have validityAligned := (ColumnData.empty_aligned .validity).append (replicate count (some 4))
    rw [length_replicate, zero_add] at columnAligned validityAligned
    exact ⟨.numeric .four, 0, columnAligned, validityAligned⟩
  inside := inside
  distinct := distinct
  simple := by
    intro index member
    cases mem_singleton.mp member
    intro key
    exact (nodup_range.filter _).map fun _ _ equal => Int.ofNat_inj.mp equal
  sound := by
    intro index member key row present
    cases mem_singleton.mp member
    obtain ⟨id, _, equal, rfl⟩ := mem_numbersIndex.mp present
    exact ⟨id, rfl, congrArg some equal⟩
  complete := by
    intro index member id deletedId key hasKey
    cases mem_singleton.mp member
    exact mem_numbersIndex.mpr ⟨id, inside id deletedId, Option.some.inj hasKey, rfl⟩

theorem numbers_cleansExactly :
    CleansExactly (fun _ : Unit => numbers 2000) [((), { vectorStart := 1024, rows := [5, 7] })] := by
  refine (cleansExactly_iff (fun _ : Unit => numbers 2000) (fun _ => 2000)
    [((), { vectorStart := 1024, rows := [5, 7] })] fun table => ?_).mpr ?_
  · cases table
    exact numbers_indexed (by decide) (by decide)
  intro call member index _ id inCall key hasKey
  cases mem_singleton.mp (show call ∈ [((), [1029, 1031])] from member)
  have sameVector : ∀ id ∈ [1029, 1031], IndexedTable.slotOf 1029 id = id := by decide
  change index.key ((numbers 2000).rowAt (IndexedTable.slotOf 1029 id)) = some key
  rw [sameVector id inCall]
  exact hasKey

/-- The rows 5 and 1029 of two vectors: the key of row 5 is looked up for both. -/
theorem not_cleansExactly :
    ¬CleansExactly (fun _ : Unit => numbers 2000)
      [((), { vectorStart := 0, rows := [5] }), ((), { vectorStart := 1024, rows := [5] })] := by
  intro cleans
  have inside : Indexed (numbers 2000) 2000 [5, 1029] := numbers_indexed (by decide) (by decide)
  have found := keysFound_of_cleansExactly (fun _ => inside) cleans
  have key : (numbersIndex 2000).key ((numbers 2000).rowAt 5) = some (numberKey 1029) :=
    found ((), [5, 1029]) (mem_singleton_self _) (numbersIndex 2000)
      (mem_singleton_self _) 1029 (by decide) (numberKey 1029) rfl
  exact absurd (Option.some.inj key) (by decide)

end CleanupState

end GuinsooDB
