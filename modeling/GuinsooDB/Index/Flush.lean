import GuinsooDB.Index.TableIndex
import GuinsooDB.Version.DeleteIds
import GuinsooDB.Version.Sound

/-!
`LocalStorage::Flush`: the rows that a transaction inserted go to the indexes and the table, chunk
by chunk, and all of it is taken back when a unique index has one of the keys already.
-/

namespace GuinsooDB

open List Transition

namespace TableIndex

variable {Row : Type}

def withRows (index : TableIndex Row) (rows : List (Row × Nat)) : TableIndex Row :=
  { index with contents := index.contents.withRows (index.keyed rows) }

def Before (row : Nat) (index : TableIndex Row) : Prop :=
  ∀ key id, id ∈ index.contents key → id < (row : Int)

def appendLoop (rows : List (Row × Nat)) :
    List (TableIndex Row) → List (TableIndex Row) × Option Nat
  | [] => ([], none)
  | index :: rest =>
    match index.append rows with
    | (changed, true) =>
      let (after, failed) := appendLoop rows rest
      (changed :: after, failed.map (· + 1))
    | (changed, false) => (changed :: rest, some 0)

def appendToIndexes (indexes : List (TableIndex Row)) (rows : List (Row × Nat)) :
    List (TableIndex Row) × Bool :=
  match appendLoop rows indexes with
  | (after, none) => (after, true)
  | (after, some failedIndex) =>
    ((after.take failedIndex).map (·.delete rows) ++ after.drop failedIndex, false)

def removeFromIndexes (indexes : List (TableIndex Row)) (rows : List (Row × Nat)) :
    List (TableIndex Row) :=
  indexes.map (·.delete rows)

/-- The first scan of `Flush`: the indexes, the row up to which chunks have been appended, and
whether a constraint is violated. -/
def appendChunks : List (List Row) → List (TableIndex Row) → Nat →
    List (TableIndex Row) × Nat × Bool
  | [], indexes, currentRow => (indexes, currentRow, false)
  | chunk :: rest, indexes, currentRow =>
    match appendToIndexes indexes (chunk.zipIdx currentRow) with
    | (after, true) => appendChunks rest after (currentRow + chunk.length)
    | (after, false) => (after, currentRow, true)

/-- The second scan of `Flush`, which ends once it has come to the given row. -/
def removeChunks (stop : Nat) : List (List Row) → List (TableIndex Row) → Nat →
    List (TableIndex Row)
  | [], indexes, _ => indexes
  | chunk :: rest, indexes, currentRow =>
    let removed := removeFromIndexes indexes (chunk.zipIdx currentRow)
    if stop ≤ currentRow + chunk.length then removed
    else removeChunks stop rest removed (currentRow + chunk.length)

end TableIndex

/-- The rows that a transaction inserted, with those of them that it deleted again. -/
structure LocalRows (Row : Type) where
  chunks : List (List Row)
  deletes : LocalDeletes

namespace LocalRows

variable {Row : Type}

def cleared : LocalRows Row :=
  { chunks := [], deletes := { deletedEntries := fun _ _ => false, deletedRows := 0 } }

def count (storage : LocalRows Row) : Nat := storage.chunks.flatten.length

def validRows (storage : LocalRows Row) (chunkIdx : Nat) (chunk : List Row) : List Row :=
  (chunk.zipIdx.filter fun (_, slot) => !storage.deletes.deletedEntries chunkIdx slot).map Prod.fst

def scanFrom (storage : LocalRows Row) : Nat → List (List Row) → List (List Row)
  | _, [] => []
  | chunkIdx, chunk :: rest =>
    let valid := storage.validRows chunkIdx chunk
    if valid.isEmpty then storage.scanFrom (chunkIdx + 1) rest
    else valid :: storage.scanFrom (chunkIdx + 1) rest

def scan (storage : LocalRows Row) : List (List Row) := storage.scanFrom 0 storage.chunks

end LocalRows

structure FlushTable (Row : Type) where
  isRoot : Bool
  versions : VersionedTable
  indexes : List (TableIndex Row)

structure FlushResult (Row : Type) where
  table : FlushTable Row
  storage : LocalRows Row
  pushed : Option (Nat × Nat)
  error : Option String

def alteredMessage : String :=
  "Transaction conflict: adding entries to a table that has been altered!"

def duplicatedMessage : String := "PRIMARY KEY or UNIQUE constraint violated: duplicated key"

namespace FlushTable

variable {Row : Type}

def flush (table : FlushTable Row) (transactionId : Nat) (storage : LocalRows Row) :
    Option (FlushResult Row) :=
  if storage.count ≤ storage.deletes.deletedRows then
    some { table, storage, pushed := none, error := none }
  else if !table.isRoot then
    some { table, storage, pushed := none, error := some alteredMessage }
  else
    let appendCount := storage.count - storage.deletes.deletedRows
    let rowStart := table.versions.totalRows
    (table.versions.initializeAppend transactionId appendCount).map fun versions =>
      match TableIndex.appendChunks storage.scan table.indexes rowStart with
      | (indexes, currentRow, true) =>
        { table := { table with
            versions := versions.revertAppend rowStart appendCount
            indexes := TableIndex.removeChunks currentRow storage.scan indexes rowStart }
          storage := .cleared, pushed := none, error := some duplicatedMessage }
      | (indexes, _, false) =>
        { table := { table with versions, indexes }
          storage := .cleared, pushed := some (rowStart, appendCount), error := none }

/-- The row is selected by a scan of its vector, or an index has it and it can be fetched. -/
def Sees (table : FlushTable Row) (transaction : Transaction) (row : Nat) : Prop :=
  let vector := row / standardVectorSize
  let count := table.versions.rowsIn vector
  row % standardVectorSize ∈
      selectedRows count (table.versions.getSelVector transaction vector count) ∨
    (∃ index ∈ table.indexes, ∃ key, (row : Int) ∈ index.contents key) ∧
      table.versions.fetch transaction row

end FlushTable

/-! Entries that are added and removed again -/

namespace TableIndex

variable {Row : Type} {index : TableIndex Row} {indexes : List (TableIndex Row)}
  {rows first second : List (Row × Nat)} {chunk : List Row} {row : Nat}

theorem withRows_nil (index : TableIndex Row) : index.withRows [] = index := by
  rw [withRows, keyed, map_nil, Contents.withRows_nil]

theorem map_withRows_nil (indexes : List (TableIndex Row)) : indexes.map (·.withRows []) = indexes := by
  refine map_id'' ?_ indexes
  exact withRows_nil

section

variable (before : index.Before row)
include before

theorem Before.fresh (chunk : List Row) : index.contents.Fresh (index.keyed (chunk.zipIdx row)) := by
  intro key id member present
  obtain ⟨⟨values, place⟩, inChunk, equal⟩ := mem_map.mp member
  obtain ⟨_, rfl⟩ := Prod.mk.inj equal
  have above := le_snd_of_mem_zipIdx inChunk
  have below := before key _ present
  omega

theorem append_cases (chunk : List Row) : index.append (chunk.zipIdx row) = (index.withRows (chunk.zipIdx row), true) ∨
      index.append (chunk.zipIdx row) = (index, false) := by
  rw [append]
  rcases Contents.insert_eq (before.fresh chunk) with added | refused
  · exact .inl (by rw [added]; rfl)
  · exact .inr (by rw [refused])

theorem delete_withRows (chunk : List Row) (others : List (Row × Nat)) :
    (index.withRows (chunk.zipIdx row ++ others)).delete (chunk.zipIdx row) = index.withRows others := by
  have erased : _ = index.contents.withRows (index.keyed others) :=
    Contents.eraseRows_withRows_append (before.fresh chunk)
  rw [withRows, delete, withRows, ← erased, keyed, map_append]
  rfl

theorem Before.mono {later : Nat} (behind : row ≤ later) : index.Before later := by
  intro key id present
  have below := before key id present
  omega

theorem Before.withRows (chunk : List Row) : (index.withRows (chunk.zipIdx row)).Before (row + chunk.length) := by
  intro key id present
  rcases mem_append.mp present with old | added
  · have below := before key id old
    omega
  obtain ⟨⟨rowKey, place⟩, member, found⟩ := mem_filterMap.mp added
  obtain ⟨⟨values, number⟩, inChunk, equal⟩ := mem_map.mp member
  obtain ⟨_, rfl⟩ := Prod.mk.inj equal
  have below := snd_lt_add_of_mem_zipIdx inChunk
  dsimp only at found
  split at found
  · cases found
    omega
  · cases found

end

theorem appendLoop_cases (before : ∀ index ∈ indexes, index.Before row) (chunk : List Row) :
    appendLoop (chunk.zipIdx row) indexes = (indexes.map (·.withRows (chunk.zipIdx row)), none) ∨
      ∃ failedIndex, appendLoop (chunk.zipIdx row) indexes =
        ((indexes.take failedIndex).map (·.withRows (chunk.zipIdx row)) ++
          indexes.drop failedIndex, some failedIndex) ∧ failedIndex ≤ indexes.length := by
  induction indexes with
  | nil => exact .inl rfl
  | cons index rest ih =>
    obtain ⟨first, later⟩ := forall_mem_cons.mp before
    rw [appendLoop]
    rcases append_cases first chunk with added | refused
    · rw [added]
      rcases ih later with whole | ⟨failedIndex, stopped, inside⟩
      · exact .inl (by rw [whole]; rfl)
      · refine .inr ⟨failedIndex + 1, ?_, Nat.succ_le_succ inside⟩
        rw [stopped]
        rfl
    · rw [refused]
      exact .inr ⟨0, rfl, Nat.zero_le _⟩

theorem appendToIndexes_cases (before : ∀ index ∈ indexes, index.Before row) (chunk : List Row) :
    appendToIndexes indexes (chunk.zipIdx row) = (indexes.map (·.withRows (chunk.zipIdx row)), true) ∨
      appendToIndexes indexes (chunk.zipIdx row) = (indexes, false) := by
  rw [appendToIndexes]
  rcases appendLoop_cases before chunk with whole | ⟨failedIndex, stopped, inside⟩
  · exact .inl (by rw [whole])
  refine .inr ?_
  rw [stopped]
  dsimp only
  have size : ((indexes.take failedIndex).map (·.withRows (chunk.zipIdx row))).length =
      failedIndex := by
    rw [length_map, length_take, min_eq_left inside]
  rw [take_left' size, drop_left' size, map_map]
  have undone : ∀ index ∈ indexes.take failedIndex,
      ((·.delete (chunk.zipIdx row)) ∘ (·.withRows (chunk.zipIdx row))) index = id index := by
    intro index member
    have restored := delete_withRows (before index (mem_of_mem_take member)) chunk []
    rwa [append_nil, withRows_nil] at restored
  rw [map_congr_left undone, map_id, take_append_drop]

/-! The two scans -/

variable {appended rest : List (List Row)}

theorem map_withRows_append (indexes : List (TableIndex Row)) (first second : List (Row × Nat)) :
    (indexes.map (·.withRows first)).map (·.withRows second) = indexes.map (·.withRows (first ++ second)) := by
  rw [map_map]
  refine map_congr_left fun index _ => ?_
  have contents : (index.contents.withRows (index.keyed first)).withRows (index.keyed second) =
      index.contents.withRows (index.keyed (first ++ second)) := by
    funext key
    simp only [Contents.withRows, Contents.rowsAt, keyed, map_append, filterMap_append, append_assoc]
  exact congrArg (fun contents => { index with contents }) contents

theorem zipIdx_flatten_cons (chunk : List Row) (rest : List (List Row)) (row : Nat) :
    (chunk :: rest).flatten.zipIdx row = chunk.zipIdx row ++ rest.flatten.zipIdx (row + chunk.length) := by
  rw [flatten_cons, zipIdx_append]

variable (before : ∀ index ∈ indexes, index.Before row)
include before

theorem appendChunks_spec (chunks : List (List Row)) : ∃ appended rest, chunks = appended ++ rest ∧
      ∃ violated, appendChunks chunks indexes row =
          (indexes.map (·.withRows (appended.flatten.zipIdx row)), row + appended.flatten.length,
            violated) ∧ (violated = true ↔ rest ≠ []) := by
  induction chunks generalizing indexes row with
  | nil =>
    refine ⟨[], [], rfl, false, ?_, by simp⟩
    rw [appendChunks, flatten_nil, zipIdx_nil, map_withRows_nil]
    rfl
  | cons chunk others ih =>
    rw [appendChunks]
    rcases appendToIndexes_cases before chunk with added | refused
    · rw [added]
      dsimp only
      have beforeNext : ∀ index ∈ indexes.map (·.withRows (chunk.zipIdx row)), index.Before (row + chunk.length) := by
        intro index member
        obtain ⟨old, inIndexes, rfl⟩ := mem_map.mp member
        exact (before old inIndexes).withRows chunk
      obtain ⟨appended, rest, rfl, violated, ran, isViolated⟩ := ih beforeNext
      refine ⟨chunk :: appended, rest, rfl, violated, ?_, isViolated⟩
      rw [ran, map_withRows_append, zipIdx_flatten_cons, flatten_cons, length_append, add_assoc]
    · rw [refused]
      refine ⟨[], chunk :: others, rfl, true, ?_, by simp⟩
      rw [flatten_nil, zipIdx_nil, map_withRows_nil]
      rfl

theorem removeFromIndexes_withRows (chunk : List Row) (others : List (Row × Nat)) :
    removeFromIndexes (indexes.map (·.withRows (chunk.zipIdx row ++ others))) (chunk.zipIdx row) =
      indexes.map (·.withRows others) := by
  rw [removeFromIndexes, map_map]
  exact map_congr_left fun index member => delete_withRows (before index member) chunk others

theorem removeFromIndexes_of_before (chunk : List Row) : removeFromIndexes indexes (chunk.zipIdx row) = indexes := by
  have unchanged : ∀ index ∈ indexes, index.delete (chunk.zipIdx row) = id index := fun index member => by
      rw [TableIndex.delete, Contents.eraseRows_of_fresh ((before index member).fresh chunk), id]
  rw [removeFromIndexes, map_congr_left unchanged, map_id]

theorem removeChunks_eq (violating : rest ≠ []) : removeChunks (row + appended.flatten.length) (appended ++ rest)
      (indexes.map (·.withRows (appended.flatten.zipIdx row))) row = indexes := by
  induction appended generalizing row with
  | nil =>
    obtain ⟨chunk, others, rfl⟩ := exists_cons_of_ne_nil violating
    rw [nil_append, removeChunks, flatten_nil, zipIdx_nil, map_withRows_nil,
      length_nil, if_pos (Nat.add_le_add_left (Nat.zero_le _) _)]
    exact removeFromIndexes_of_before before chunk
  | cons chunk others ih =>
    rw [zipIdx_flatten_cons, cons_append, removeChunks, removeFromIndexes_withRows before, flatten_cons, length_append]
    split
    · next done =>
        have finished : others.flatten = [] := eq_nil_of_length_eq_zero (by omega)
        rw [finished, zipIdx_nil, map_withRows_nil]
    · have beforeNext : ∀ index ∈ indexes, index.Before (row + chunk.length) :=
        fun index member => (before index member).mono (Nat.le_add_right _ _)
      rw [← add_assoc]
      exact ih beforeNext

end TableIndex

/-! What a scan selects -/

theorem ChunkInfo.selected_lt {info : Option ChunkInfo} {startTime id maxCount row : Nat}
    (selected : row ∈ selectedRows maxCount (ChunkInfo.getSelVector info startTime id maxCount)) : row < maxCount := by
  match info with
  | none =>
    rw [getSelVector, selectedRows_all] at selected
    exact mem_range.mp selected
  | some (.constant insertId deleteId) =>
    rw [getSelVector, selectedRows_constant] at selected
    exact mem_range.mp (mem_of_mem_filter selected)
  | some (.vector chunk) =>
    rw [getSelVector, ChunkVectorInfo.selectedRows_getSelVector] at selected
    exact mem_range.mp (mem_of_mem_filter selected)

namespace FlushTable

variable {Row : Type} {table : FlushTable Row} {storage : LocalRows Row} {transactionId : Nat}
  {result : FlushResult Row}

def Inside (table : FlushTable Row) : Prop :=
  ∀ index ∈ table.indexes, index.Before table.versions.totalRows

theorem Inside.of_sees (inside : table.Inside) {transaction : Transaction} {row : Nat}
    (sees : table.Sees transaction row) : row < table.versions.totalRows := by
  rcases sees with selected | ⟨⟨index, member, key, present⟩, _⟩
  · have below := ChunkInfo.selected_lt selected
    simp only [VersionedTable.rowsIn, BlockRange.upper, standardVectorSize] at below
    omega
  · have below := inside index member key row present
    omega

theorem flush_cases (inside : table.Inside) (ran : table.flush transactionId storage = some result) :
    (result.table = table ∧ result.error ≠ some duplicatedMessage) ∨ storage.deletes.deletedRows < storage.count ∧
      ∃ versions, table.versions.initializeAppend transactionId
          (storage.count - storage.deletes.deletedRows) = some versions ∧
        (result.error = none ∧ result.table.versions = versions ∧ result.table.indexes = table.indexes.map
              (·.withRows (storage.scan.flatten.zipIdx table.versions.totalRows)) ∨
          result.error = some duplicatedMessage ∧ result.table.versions = versions.revertAppend table.versions.totalRows
              (storage.count - storage.deletes.deletedRows) ∧
            result.table.indexes = table.indexes) := by
  rw [flush] at ran
  split at ran
  · cases ran
    exact .inl ⟨rfl, (Option.some_ne_none _).symm⟩
  next rowsLeft =>
  split at ran
  · cases ran
    have apart : alteredMessage ≠ duplicatedMessage := by decide
    exact .inl ⟨rfl, fun same => apart (Option.some.inj same)⟩
  obtain ⟨versions, started, finished⟩ := Option.map_eq_some_iff.mp ran
  refine .inr ⟨Nat.lt_of_not_le rowsLeft, versions, started, ?_⟩
  obtain ⟨appended, rest, scanned, violated, appends, isViolated⟩ := TableIndex.appendChunks_spec inside storage.scan
  rw [appends] at finished
  cases violated with
  | false =>
    have all : rest = [] := by simpa using isViolated
    rw [all, append_nil] at scanned
    subst finished
    exact .inl ⟨rfl, rfl, by rw [scanned]⟩
  | true =>
    subst finished
    refine .inr ⟨rfl, rfl, ?_⟩
    rw [scanned]
    exact TableIndex.removeChunks_eq inside (isViolated.mp rfl)

theorem initializeAppend_totalRows {table appended : VersionedTable} {id count : Nat}
    (started : table.initializeAppend id count = some appended) :
    appended.totalRows = table.totalRows + count := by
  obtain ⟨written, _, rfl⟩ := Option.map_eq_some_iff.mp started
  rfl

theorem revertAppend_last {table : VersionedTable} {start count : Nat} (nonempty : 0 < count)
    (last : table.totalRows = start + count) : (table.revertAppend start count).totalRows = start := by
  rw [VersionedTable.revertAppend, if_neg (ne_of_gt nonempty), if_neg (not_not.mpr last)]

theorem flush_append {state : VersionState} (same : state.table = table.versions)
    (root : table.isRoot = true) (ran : table.flush transactionId storage = some result) :
    ∃ after, state.append transactionId (storage.count - storage.deletes.deletedRows)
        result.error.isSome = some after ∧ after.table = result.table.versions := by
  rw [flush, root] at ran
  rw [VersionState.append, same]
  split at ran
  next noRows =>
    cases ran
    exact ⟨state, if_pos (Nat.sub_eq_zero_of_le noRows), same⟩
  next rowsLeft =>
    rw [if_neg (Nat.sub_ne_zero_of_lt (Nat.lt_of_not_le rowsLeft))]
    obtain ⟨versions, started, rfl⟩ := Option.map_eq_some_iff.mp ran
    rw [started]
    refine ⟨_, rfl, ?_⟩
    rcases TableIndex.appendChunks storage.scan table.indexes table.versions.totalRows with ⟨_, _, _ | _⟩ <;> rfl

def twoEntries (key : List Byte) : List Int :=
  if key = [byteOf 5] then [0] else if key = [byteOf 7] then [1] else []

def twoRows : FlushTable Nat where
  isRoot := true
  versions := { VersionedTable.empty with totalRows := 2 }
  indexes := [
    { unique := false, key := fun row => some [byteOf row], contents := twoEntries },
    { unique := true, key := fun row => some [byteOf row], contents := twoEntries }]

def threeRows : LocalRows Nat where
  chunks := [[8, 9], [7]]
  deletes := { deletedEntries := fun chunk slot => chunk == 0 && slot == 1, deletedRows := 1 }

theorem twoRows_inside : twoRows.Inside := by
  intro index member key id present
  have contents : index.contents = twoEntries := by
    rcases mem_cons.mp member with rfl | member
    · rfl
    · cases mem_singleton.mp member
      rfl
  rw [contents, twoEntries] at present
  split at present
  · cases mem_singleton.mp present
    decide
  · split at present
    · cases mem_singleton.mp present
      decide
    · cases present

def LocalRows.Counted (storage : LocalRows Row) : Prop :=
  storage.scan.flatten.length + storage.deletes.deletedRows = storage.count

theorem flush_inside (inside : table.Inside) (counted : LocalRows.Counted storage)
    (ran : table.flush transactionId storage = some result) : result.table.Inside := by
  rcases flush_cases inside ran with ⟨same, _⟩ | ⟨rowsLeft, versions, started, ended⟩
  · rw [same]
    exact inside
  have total := initializeAppend_totalRows started
  rcases ended with ⟨_, appended, indexes⟩ | ⟨_, reverted, indexes⟩
  · rw [Inside, appended, indexes, total]
    intro index member
    obtain ⟨old, inIndexes, rfl⟩ := mem_map.mp member
    rw [← counted, Nat.add_sub_cancel]
    exact (inside old inIndexes).withRows _
  · rw [Inside, reverted, indexes, revertAppend_last (Nat.sub_pos_of_lt rowsLeft) total]
    exact inside

def flushed (table : FlushTable Row) (call : Nat × LocalRows Row) : Option (FlushTable Row) :=
  (table.flush call.1 call.2).map FlushResult.table

end FlushTable

end GuinsooDB
