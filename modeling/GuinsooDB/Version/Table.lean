import GuinsooDB.Library.Transition
import GuinsooDB.Version.ChunkInfo

/-!
The morsels of a table under appends, deletes, commits and rollbacks of transactions, with
the insert and delete id that these operations record for every row.
-/

namespace GuinsooDB

open BlockRange Function

structure VersionedTable where
  totalRows : Nat
  segmentCount : Nat
  versions : Nat → MorselInfo

namespace VersionedTable

def empty : VersionedTable where
  totalRows := 0
  segmentCount := 1
  versions := fun segment => .empty (segment * morselSize)

variable (table : VersionedTable)

def setMorsel (segment : Nat) (morsel : MorselInfo) : VersionedTable :=
  { table with versions := update table.versions segment morsel }

def appendLoop (transactionId : Nat) :
    Nat → VersionedTable → Nat → Nat → Option VersionedTable
  | 0, table, _, _ => some table
  | fuel + 1, table, position, remaining =>
    let segment := table.segmentCount - 1
    let toWrite := min remaining (morselSize - position)
    let written :=
      if toWrite > 0 then
        ((table.versions segment).append position toWrite transactionId).map
          (table.setMorsel segment)
      else some table
    written.bind fun table =>
      if remaining - toWrite > 0 then
        appendLoop transactionId fuel
          { table.setMorsel (segment + 1) (.empty ((segment + 1) * morselSize)) with
            segmentCount := table.segmentCount + 1 } 0 (remaining - toWrite)
      else some table

def initializeAppend (transactionId appendCount : Nat) : Option VersionedTable :=
  let position := table.totalRows - (table.segmentCount - 1) * morselSize
  (appendLoop transactionId (appendCount + 2) table position appendCount).map fun appended =>
    { appended with totalRows := table.totalRows + appendCount }

def commitLoop (commitId : Nat) :
    Nat → VersionedTable → Nat → Nat → Option VersionedTable
  | 0, table, _, _ => some table
  | fuel + 1, table, currentRow, remaining =>
    let segment := currentRow / morselSize
    let startInMorsel := currentRow - segment * morselSize
    let appendCount := min (morselSize - startInMorsel) remaining
    (((table.versions segment).commitAppend commitId startInMorsel appendCount).map
      (table.setMorsel segment)).bind fun table =>
      if remaining - appendCount = 0 then some table
      else commitLoop commitId fuel table (currentRow + appendCount) (remaining - appendCount)

def commitAppend (commitId rowStart count : Nat) : Option VersionedTable :=
  commitLoop commitId (count + 1) table rowStart count

/-- `RevertAppendInternal`. Rows that another append follows stay where they are. -/
def revertAppend (startRow count : Nat) : VersionedTable :=
  if count = 0 then table
  else if table.totalRows ≠ startRow + count then table
  else
    let segment := startRow / morselSize
    { totalRows := startRow
      segmentCount := segment + 1
      versions := fun other =>
        if other = segment then (table.versions segment).revertAppend startRow
        else if segment < other then .empty (other * morselSize)
        else table.versions other }

def info (vector : Nat) : Option ChunkInfo :=
  (table.versions (vector / morselVectorCount)).info (vector % morselVectorCount)

def rowsIn (vector : Nat) : Nat :=
  upper standardVectorSize table.totalRows vector

def getSelVector (transaction : Transaction) (vector maxCount : Nat) : Nat × List Nat :=
  (table.versions (vector / morselVectorCount)).getSelVector transaction
    (vector % morselVectorCount) maxCount

def fetch (transaction : Transaction) (row : Nat) : Bool :=
  (table.versions (row / morselSize)).fetch transaction (row % morselSize)

end VersionedTable

/-- An undo entry. The pointer to the info of a delete is the number of its vector. -/
inductive VersionEntry where
  | append (startRow count : Nat)
  | delete (vector : Nat) (rows : List Nat)

namespace VersionEntry

def commit (commitId : Nat) (table : VersionedTable) : VersionEntry → Option VersionedTable
  | .append startRow count => table.commitAppend commitId startRow count
  | .delete vector rows =>
    let segment := vector / morselVectorCount
    let morsel := table.versions segment
    (ChunkInfo.commitDelete commitId rows (morsel.info (vector % morselVectorCount))).map
      fun info => table.setMorsel segment { morsel with
        info := update morsel.info (vector % morselVectorCount) info }

/-- `RollbackEntry` with the id for not deleted rows, and `RevertCommit` with the id of the
transaction. -/
def revert (deleteId : Nat) (table : VersionedTable) : VersionEntry → Option VersionedTable
  | .append startRow count => some (table.revertAppend startRow count)
  | .delete vector rows => commit deleteId table (.delete vector rows)

end VersionEntry

/-! The ids recorded for the rows -/

structure RowVersion where
  inserted : Nat
  deleted : Nat
  deriving Repr, DecidableEq

def RowVersion.visible (version : RowVersion) (transaction : Transaction) : Bool :=
  useVersion transaction.startTime transaction.transactionId version.inserted &&
    !useVersion transaction.startTime transaction.transactionId version.deleted

abbrev RowVersions := Nat → RowVersion

namespace RowVersions

variable (recorded : RowVersions)

def insert (start count id : Nat) : RowVersions := fun row =>
  if start ≤ row ∧ row < start + count then { inserted := id, deleted := notDeletedId }
  else recorded row

def commitInsert (start count id : Nat) : RowVersions := fun row =>
  if start ≤ row ∧ row < start + count then { recorded row with inserted := id }
  else recorded row

def delete (vector : Nat) (rows : List Nat) (id : Nat) : RowVersions :=
  fun row =>
    if row / standardVectorSize = vector ∧ row % standardVectorSize ∈ rows then
      { recorded row with deleted := id }
    else recorded row

def commitEntry (id : Nat) (recorded : RowVersions) : VersionEntry → RowVersions
  | .append startRow count => recorded.commitInsert startRow count id
  | .delete vector rows => recorded.delete vector rows id

def revertEntry (deleteId : Nat) (recorded : RowVersions) : VersionEntry → RowVersions
  | .append _ _ => recorded
  | .delete vector rows => recorded.delete vector rows deleteId

end RowVersions

/-! Transactions on the table -/

inductive VersionAction where
  | start
  | append (transactionId count : Nat) (constraintViolated : Bool)
  | delete (transactionId segment : Nat) (rowIds : List Nat)
  | commit (transactionId : Nat) (failure : Option (Nat × Nat))
  | rollback (transactionId : Nat)

structure VersionState where
  manager : TransactionManager
  table : VersionedTable
  undo : Nat → List VersionEntry
  recorded : RowVersions

namespace VersionState

def initial (table : VersionedTable) (recorded : RowVersions) : VersionState where
  manager := .initial
  table := table
  undo := fun _ => []
  recorded := recorded

variable (state : VersionState) (transactionId : Nat)

def push (entries : List VersionEntry) : VersionState :=
  { state with
    undo := update state.undo transactionId (state.undo transactionId ++ entries) }

/-- `LocalStorage::Flush`: an append that violates a constraint is taken back at once. -/
def append (count : Nat) (constraintViolated : Bool) : Option VersionState :=
  if count = 0 then some state
  else
    (state.table.initializeAppend transactionId count).map fun table =>
      let rowStart := state.table.totalRows
      let appended := { state with
        table, recorded := state.recorded.insert rowStart count transactionId }
      if constraintViolated then
        { appended with table := table.revertAppend rowStart count }
      else appended.push transactionId [.append rowStart count]

/-- `MorselInfo::Delete`. The groups deleted before an exception stay in the undo buffer. -/
def delete (segment : Nat) (rowIds : List Nat) : VersionState :=
  let deleted := ((state.table.versions segment).delete transactionId rowIds).1
  let groups := deleted.pushed.map fun group => (segment * morselVectorCount + group.1, group.2)
  { state.push transactionId (groups.map fun group => .delete group.1 group.2) with
    table := state.table.setMorsel segment deleted.morsel
    recorded := groups.foldl (fun recorded group =>
      recorded.delete group.1 group.2 transactionId) state.recorded }

def forEntries (change : VersionedTable → VersionEntry → Option VersionedTable)
    (record : RowVersions → VersionEntry → RowVersions) (state : VersionState)
    (entries : List VersionEntry) : Option VersionState :=
  (entries.foldlM change state.table).map fun table =>
    { state with table, recorded := entries.foldl record state.recorded }

def commitEntries (commitId : Nat) : VersionState → List VersionEntry → Option VersionState :=
  forEntries (VersionEntry.commit commitId) (RowVersions.commitEntry commitId)

def revertEntries (deleteId : Nat) : VersionState → List VersionEntry → Option VersionState :=
  forEntries (VersionEntry.revert deleteId) (RowVersions.revertEntry deleteId)

variable (transaction : Transaction)

def removeTransaction : VersionState :=
  { state with manager := (state.manager.removeTransaction transaction).1 }

/-- `CommitTransaction`. A failure says how many entries were committed and how many of the
entries `RevertCommit` goes through before the transaction is rolled back. -/
def commit (failure : Option (Nat × Nat)) : Option VersionState :=
  let id := transaction.transactionId
  let entries := state.undo id
  let (manager, commitId) := state.manager.drawCommitId
  let drawn := { state with manager }
  match failure with
  | none =>
    (drawn.commitEntries commitId entries).map fun committed =>
      committed.removeTransaction { transaction with commitId }
  | some (committed, reverted) =>
    (drawn.commitEntries commitId (entries.take committed)).bind fun state =>
      (state.revertEntries id (entries.take reverted)).bind fun state =>
        (state.revertEntries notDeletedId entries.reverse).map fun state =>
          state.removeTransaction { transaction with commitId := 0 }

def rollback : Option VersionState :=
  (state.revertEntries notDeletedId (state.undo transaction.transactionId).reverse).map
    fun reverted => reverted.removeTransaction transaction

def step : VersionAction → Option VersionState
  | .start =>
    match state.manager.startTransaction with
    | .ok (manager, _) => some { state with manager }
    | .error _ => some state
  | .append transactionId count constraintViolated =>
    match state.manager.find transactionId with
    | none => some state
    | some transaction => state.append transaction.transactionId count constraintViolated
  | .delete transactionId segment rowIds =>
    match state.manager.find transactionId with
    | none => some state
    | some transaction => some (state.delete transaction.transactionId segment rowIds)
  | .commit transactionId failure =>
    match state.manager.find transactionId with
    | none => some state
    | some transaction => state.commit transaction failure
  | .rollback transactionId =>
    match state.manager.find transactionId with
    | none => some state
    | some transaction => state.rollback transaction

end VersionState

end GuinsooDB
