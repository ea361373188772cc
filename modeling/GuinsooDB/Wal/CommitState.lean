import GuinsooDB.Library.SortedEntries
import GuinsooDB.Library.Transition
import GuinsooDB.Transaction.Manager

/-!
The records that committing an undo buffer writes to the log. `CommitState` remembers the
table it switched to last, and `DataTable::WriteToLog` names its table on its own.
-/

namespace GuinsooDB

open SortedEntries Transition

/-- The commit state compares tables by address; the log names them by schema and table. -/
structure DataTableInfo where
  address : Nat
  schema : String
  table : String
  deriving Repr, DecidableEq

def DataTableInfo.isTemporary (info : DataTableInfo) : Bool := info.schema == "temp"

def DataTableInfo.name (info : DataTableInfo) : String × String := (info.schema, info.table)

variable {Row Value Change : Type}

inductive WalRecord (Row Value Change : Type) where
  | catalog (change : Change)
  | useTable (schema table : String)
  | insertTuple (chunk : List Row)
  | deleteTuple (rowIds : List Nat)
  | updateTuple (column : Nat) (chunk : List (Value × Nat))

structure LogEntry (Row Value Change : Type) where
  record : WalRecord Row Value Change
  owner : Option DataTableInfo

/-- A catalog entry that is not persisted has no change to write. -/
inductive UndoEntry (Change : Type) where
  | catalogEntry (change : Option Change)
  | insertTuple (info : DataTableInfo) (startRow count : Nat)
  | deleteTuple (info : DataTableInfo) (baseRow : Nat) (rows : List Nat)
  | updateTuple (info : DataTableInfo) (column start : Nat) (tuples : List Nat)

/-- What the scan of a table segment and `FetchCommitted` read. -/
structure TableData (Row Value : Type) where
  row : DataTableInfo → Nat → Row
  committed : DataTableInfo → Nat → Nat → Value

def scanSegmentLoop (rowStart stop : Nat) : Nat → Nat → List (List Nat)
  | 0, _ => []
  | fuel + 1, currentRow =>
    if currentRow ≥ stop then []
    else
      let endRow := currentRow + standardVectorSize
      let chunkStart := if currentRow < rowStart then rowStart else currentRow
      let chunkEnd := if endRow > stop then stop else endRow
      List.range' chunkStart (chunkEnd - chunkStart) :: scanSegmentLoop rowStart stop fuel endRow

def scanTableSegment (rowStart count : Nat) : List (List Nat) :=
  scanSegmentLoop rowStart (rowStart + count) (rowStart + count)
    (rowStart / standardVectorSize * standardVectorSize)

structure CommitState (Row Value Change : Type) where
  log : List (LogEntry Row Value Change)
  currentTableInfo : Option DataTableInfo

namespace CommitState

def initial : CommitState Row Value Change := { log := [], currentTableInfo := none }

variable (state : CommitState Row Value Change)

def write (entries : List (LogEntry Row Value Change)) : CommitState Row Value Change :=
  { state with log := state.log ++ entries }

def switchTable (info : DataTableInfo) : CommitState Row Value Change :=
  if state.currentTableInfo.map DataTableInfo.address ≠ some info.address then
    { state.write [⟨.useTable info.schema info.table, none⟩] with currentTableInfo := some info }
  else state

def writeDelete (info : DataTableInfo) (baseRow : Nat) (rows : List Nat) :
    CommitState Row Value Change :=
  (state.switchTable info).write [⟨.deleteTuple (rows.map (baseRow + ·)), some info⟩]

variable (data : TableData Row Value)

def writeUpdate (state : CommitState Row Value Change) (info : DataTableInfo) (column start : Nat)
    (tuples : List Nat) : CommitState Row Value Change :=
  (state.switchTable info).write [⟨.updateTuple column
    (tuples.map fun tuple => (data.committed info column (start + tuple), start + tuple)),
    some info⟩]

def writeToLog (state : CommitState Row Value Change) (info : DataTableInfo) (startRow count : Nat) :
    CommitState Row Value Change :=
  state.write (⟨.useTable info.schema info.table, none⟩ ::
    (scanTableSegment startRow count).map fun chunk =>
      ⟨.insertTuple (chunk.map (data.row info)), some info⟩)

def commitEntry (state : CommitState Row Value Change) :
    UndoEntry Change → CommitState Row Value Change
  | .catalogEntry none => state
  | .catalogEntry (some change) => state.write [⟨.catalog change, none⟩]
  | .insertTuple info startRow count =>
    if info.isTemporary then state else state.writeToLog data info startRow count
  | .deleteTuple info baseRow rows =>
    if info.isTemporary then state else state.writeDelete info baseRow rows
  | .updateTuple info column start tuples =>
    if info.isTemporary then state else state.writeUpdate data info column start tuples

end CommitState

def commitUndoBuffer (data : TableData Row Value) (undo : List (UndoEntry Change)) :
    CommitState Row Value Change :=
  run (CommitState.commitEntry data) .initial undo

/-! The undo buffer of a transaction -/

structure LocalTableStorage where
  count : Nat
  deletedRows : Nat
  deriving Repr, DecidableEq

structure TransactionWrites (Change : Type) where
  storage : List (DataTableInfo × LocalTableStorage)
  undo : List (UndoEntry Change)

inductive TableOperation (Change : Type) where
  /-- `LocalStorage::Append` of a chunk. A flush appends from `rowStart` on, and fails when
  it violates a constraint. -/
  | append (info : DataTableInfo) (size activeScans rowStart : Nat) (constraintViolated : Bool)
  | deleteLocal (info : DataTableInfo) (count : Nat)
  | delete (info : DataTableInfo) (baseRow : Nat) (rows : List Nat)
  | update (info : DataTableInfo) (column start : Nat) (tuples : List Nat)
  | alter (change : Option Change)

namespace TransactionWrites

def empty : TransactionWrites Change := { storage := [], undo := [] }

variable (writes : TransactionWrites Change) (info : DataTableInfo)

def lookup : LocalTableStorage :=
  (writes.storage.lookup info).getD { count := 0, deletedRows := 0 }

def store (storage : LocalTableStorage) : TransactionWrites Change :=
  { writes with storage :=
      (info, storage) :: writes.storage.filter fun entry => entry.1 ≠ info }

def flush (rowStart : Nat) (constraintViolated : Bool) : TransactionWrites Change × Option String :=
  let storage := writes.lookup info
  if storage.count ≤ storage.deletedRows then (writes, none)
  else
    let cleared := writes.store info { count := 0, deletedRows := 0 }
    if constraintViolated then
      (cleared, some "PRIMARY KEY or UNIQUE constraint violated: duplicated key")
    else
      ({ cleared with undo := cleared.undo ++
          [.insertTuple info rowStart (storage.count - storage.deletedRows)] }, none)

/-- An update of a vector that the transaction has updated before extends its entry. -/
def pushUpdate (info : DataTableInfo) (column start : Nat) (tuples : List Nat) :
    List (UndoEntry Change) → List (UndoEntry Change)
  | [] => [.updateTuple info column start tuples]
  | .updateTuple other otherColumn otherStart old :: rest =>
    if other = info ∧ otherColumn = column ∧ otherStart = start then
      .updateTuple info column start (keys (mergeWith (fun _ _ _ => ())
        (tuples.map (·, ())) (old.map (·, ())))) :: rest
    else .updateTuple other otherColumn otherStart old ::
      pushUpdate info column start tuples rest
  | entry :: rest => entry :: pushUpdate info column start tuples rest

def step : TableOperation Change → TransactionWrites Change
  | .append info size activeScans rowStart constraintViolated =>
    let storage := writes.lookup info
    let appended := writes.store info { storage with count := storage.count + size }
    if activeScans = 0 ∧ storage.count + size ≥ morselSize * 2 then
      (appended.flush info rowStart constraintViolated).1
    else appended
  | .deleteLocal info count =>
    let storage := writes.lookup info
    writes.store info { storage with deletedRows := storage.deletedRows + count }
  | .delete info baseRow rows =>
    { writes with undo := writes.undo ++ [.deleteTuple info baseRow rows] }
  | .update info column start tuples =>
    { writes with undo := pushUpdate info column start tuples writes.undo }
  | .alter change => { writes with undo := writes.undo ++ [.catalogEntry change] }

def commitStorage (order : List (DataTableInfo × Nat)) : TransactionWrites Change :=
  order.foldl (fun writes entry => (writes.flush entry.1 entry.2 false).1) writes

end TransactionWrites

end GuinsooDB
