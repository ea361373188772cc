import GuinsooDB.Library.Transition
import GuinsooDB.Update.Invariant

/-!
A database of update segments: the transaction manager, the segments, and for every
transaction the update nodes in its undo buffer. The base tables are fixed.
-/

namespace GuinsooDB

open SortedEntries SnapshotLedger

structure VectorRows where
  vectorIndex : Nat
  rows : List Nat
  inMorsel : vectorIndex < morselVectorCount
  sorted : rows.Pairwise (· < ·)
  bounded : ∀ row ∈ rows, row < standardVectorSize
  nonempty : rows ≠ []

def VectorRows.ids (target : VectorRows) (start : Nat) : List Nat :=
  target.rows.map fun row => start + target.vectorIndex * standardVectorSize + row

variable {D ι : Type} {kind : ι → SegmentKind}

structure Database (D : Type) {ι : Type} (kind : ι → SegmentKind) where
  manager : TransactionManager
  segments : (index : ι) → UpdateSegment D (kind index)
  undo : Nat → List (ι × Nat)

namespace Database

def initial (starts : ι → Nat) : Database D kind := {
  manager := .initial
  segments := fun index => .create (starts index)
  undo := fun _ => []
}

def scanVector (base : ι → Nat → FlatVector D) (database : Database D kind)
    (transaction : Transaction) (index : ι) (vectorIndex : Nat) : Nat → Stored D (kind index) :=
  (database.segments index).fetchUpdates transaction vectorIndex
    (extract (kind index) (base index vectorIndex))

def startTransaction (database : Database D kind) : Except String (Database D kind × Transaction) :=
  match database.manager.startTransaction with
  | .ok (manager, transaction) => .ok ({ database with manager }, transaction)
  | .error message => .error message

variable [DecidableEq ι]

def update (base : ι → Nat → FlatVector D) (database : Database D kind)
    (transaction : Transaction) (index : ι) (target : VectorRows) (values : FlatVector D) :
    Except String (Database D kind) :=
  let segment := database.segments index
  match segment.update transaction values (target.ids segment.start)
      (base index target.vectorIndex) with
  | .error message => .error message
  | .ok (updated, created) =>
    let entries := created.map fun vectorIndex => (index, vectorIndex)
    .ok { database with
      segments := Function.update database.segments index updated
      undo := Function.update database.undo transaction.transactionId
        (database.undo transaction.transactionId ++ entries) }

def forEachEntry (change : {kind : SegmentKind} → UpdateSegment D kind → Nat → UpdateSegment D kind)
    (segments : (index : ι) → UpdateSegment D (kind index)) (entries : List (ι × Nat)) :
    (index : ι) → UpdateSegment D (kind index) :=
  entries.foldl (fun changed entry =>
    Function.update changed entry.1 (change (changed entry.1) entry.2)) segments

/-- `CommitEntry` for updates; `RevertCommit` puts the transaction id back the same way. -/
def stampEntries (segments : (index : ι) → UpdateSegment D (kind index))
    (transactionId versionNumber : Nat) (entries : List (ι × Nat)) :
    (index : ι) → UpdateSegment D (kind index) :=
  forEachEntry (fun segment vectorIndex =>
    segment.modifyInfo vectorIndex (commitNode transactionId versionNumber)) segments entries

def rollbackEntries (segments : (index : ι) → UpdateSegment D (kind index))
    (transactionId : Nat) (entries : List (ι × Nat)) : (index : ι) → UpdateSegment D (kind index) :=
  forEachEntry (fun segment vectorIndex => segment.rollbackUpdate vectorIndex transactionId)
    segments entries.reverse

def cleanupEntries (segments : (index : ι) → UpdateSegment D (kind index))
    (transactionId : Nat) (entries : List (ι × Nat)) : (index : ι) → UpdateSegment D (kind index) :=
  forEachEntry (fun segment vectorIndex => segment.cleanupUpdate vectorIndex transactionId)
    segments entries

def removeTransaction (database : Database D kind) (transaction : Transaction) : Database D kind :=
  let (manager, cleaned) := database.manager.removeTransaction transaction
  { database with
    manager
    segments := cleaned.foldl (fun segments old =>
      cleanupEntries segments old.transactionId (database.undo old.transactionId))
      database.segments }

/-- `CommitTransaction`. A failure says after how many undo entries the commit threw: those
entries are reverted, the transaction is rolled back, and it leaves without a commit id. -/
def commitTransaction (database : Database D kind) (transaction : Transaction)
    (failure : Option Nat) : Database D kind :=
  let id := transaction.transactionId
  let entries := database.undo id
  let (manager, commitId) := database.manager.drawCommitId
  match failure with
  | none =>
    removeTransaction
      { database with manager, segments := stampEntries database.segments id commitId entries }
      { transaction with commitId }
  | some reached =>
    let reverted := stampEntries
      (stampEntries database.segments id commitId (entries.take reached)) id id
      (entries.take reached)
    removeTransaction
      { database with manager, segments := rollbackEntries reverted id entries }
      { transaction with commitId := 0 }

def rollbackTransaction (database : Database D kind) (transaction : Transaction) :
    Database D kind :=
  let id := transaction.transactionId
  removeTransaction
    { database with segments := rollbackEntries database.segments id (database.undo id) } transaction

end Database

abbrev RowKey (ι : Type) := ι × Nat × Nat

abbrev RowValue (D : Type) {ι : Type} (kind : ι → SegmentKind) (key : RowKey ι) : Type :=
  Stored D (kind key.1)

def assigned : (kind : SegmentKind) → FlatVector D → Nat → Option (Stored D kind)
  | .validity, values, position => some (values.rowIsValid position)
  | .data, values, position => if values.rowIsValid position then some (values.data position) else none

def writeSet [DecidableEq ι] (kind : ι → SegmentKind) (index : ι) (target : VectorRows)
    (values : FlatVector D) (key : RowKey ι) : Option (RowValue D kind key) :=
  if key.1 = index ∧ key.2.1 = target.vectorIndex then
    (target.rows.idxOf? key.2.2).bind (assigned (kind key.1) values)
  else none

inductive Action (D ι : Type) where
  | start
  | update (transactionId : Nat) (index : ι) (target : VectorRows) (values : FlatVector D)
  | commit (transactionId : Nat) (failure : Option Nat)
  | rollback (transactionId : Nat)

/-- A database with the ledger of all writes that `Update` accepted, and the ledger of
those among them for which it recorded a version. -/
structure History (D : Type) {ι : Type} (kind : ι → SegmentKind) where
  database : Database D kind
  ledger : Ledger (RowValue D kind)
  recorded : Ledger (RowValue D kind)

namespace History

def initial (starts : ι → Nat) : History D kind :=
  { database := .initial starts, ledger := .empty, recorded := .empty }

def closeLedger (ledger : Ledger (RowValue D kind)) (transactionId commitId : Nat) :
    Option Nat → Ledger (RowValue D kind)
  | none => ledger.commit transactionId commitId
  | some _ => ledger.forget transactionId

section Step

variable [DecidableEq ι]

def step (base : ι → Nat → FlatVector D) (history : History D kind) :
    Action D ι → History D kind
  | .start =>
    match history.database.startTransaction with
    | .ok (database, _) => { history with database }
    | .error _ => history
  | .update transactionId index target values =>
    match history.database.manager.find transactionId with
    | none => history
    | some transaction =>
      match history.database.update base transaction index target values with
      | .error _ => history
      | .ok database =>
        let writes := writeSet kind index target values
        let skipped := (history.database.segments index).skipsUpdate target.vectorIndex values
          (base index target.vectorIndex)
        {
          database
          ledger := history.ledger.write transactionId writes
          recorded := if skipped then history.recorded
            else history.recorded.write transactionId writes
        }
  | .commit transactionId failure =>
    match history.database.manager.find transactionId with
    | none => history
    | some transaction =>
      let commitId := history.database.manager.currentStartTimestamp
      {
        database := history.database.commitTransaction transaction failure
        ledger := closeLedger history.ledger transactionId commitId failure
        recorded := closeLedger history.recorded transactionId commitId failure
      }
  | .rollback transactionId =>
    match history.database.manager.find transactionId with
    | none => history
    | some transaction => {
        database := history.database.rollbackTransaction transaction
        ledger := history.ledger.forget transactionId
        recorded := history.recorded.forget transactionId
      }

end Step

/-- The timestamps that are drawn stay below the version number of base nodes. -/
def Timed (history : History D kind) : Action D ι → Prop
  | .start | .commit _ _ =>
    history.database.manager.currentStartTimestamp + 1 < transactionIdStart
  | .update _ _ _ _ | .rollback _ => True

/-- An update records no version of a row while another open transaction holds a write to
it that was not recorded. -/
def Undisputed (base : ι → Nat → FlatVector D) (history : History D kind) : Action D ι → Prop
  | .update transactionId index target values =>
    (history.database.segments index).skipsUpdate target.vectorIndex values
        (base index target.vectorIndex) = true ∨
      ∀ row ∈ target.rows, ∀ other ∈ history.database.manager.activeTransactions,
        other.transactionId ≠ transactionId →
        (history.ledger.pending other.transactionId (index, target.vectorIndex, row)).isSome →
        (history.recorded.pending other.transactionId (index, target.vectorIndex, row)).isSome
  | .start | .commit _ _ | .rollback _ => True

def Allowed (base : ι → Nat → FlatVector D) (history : History D kind) (action : Action D ι) :
    Prop :=
  history.Timed action ∧ history.Undisputed base action

end History

end GuinsooDB
