import GuinsooDB.Library.BlockRange
import GuinsooDB.Transaction.Manager

/-!
Version information of the rows of a morsel: `ChunkConstantInfo` and `ChunkVectorInfo` for
the vectors, and the operations of `MorselInfo` on ranges of rows. An operation that would
run into a failed assertion or a null pointer has no result.
-/

namespace GuinsooDB

open BlockRange

def useVersion (startTime transactionId id : Nat) : Bool :=
  id < startTime || id == transactionId

structure ChunkVectorInfo where
  inserted : Nat → Nat
  deleted : Nat → Nat
  insertId : Nat
  sameInsertedId : Bool
  anyDeleted : Bool

inductive ChunkInfo where
  | constant (insertId deleteId : Nat)
  | vector (info : ChunkVectorInfo)

/-- The rows that a selection of `count` rows stands for. With all rows selected, callers
ignore the selection vector. -/
def selectedRows (maxCount : Nat) (selection : Nat × List Nat) : List Nat :=
  if selection.1 = maxCount then List.range maxCount else selection.2.take selection.1

def selectionLoop (use : Nat → Bool) (maxCount : Nat) : Nat × List Nat :=
  let selected := (List.range maxCount).filter use
  (selected.length, selected)

namespace ChunkVectorInfo

def fresh : ChunkVectorInfo where
  inserted := fun _ => 0
  deleted := fun _ => notDeletedId
  insertId := 0
  sameInsertedId := true
  anyDeleted := false

variable (info : ChunkVectorInfo)

def getSelVector (startTime transactionId maxCount : Nat) : Nat × List Nat :=
  let use := useVersion startTime transactionId
  if info.sameInsertedId && !info.anyDeleted then
    if use info.insertId then (maxCount, []) else (0, [])
  else if info.sameInsertedId then
    if !use info.insertId then (0, [])
    else selectionLoop (fun row => !use (info.deleted row)) maxCount
  else if !info.anyDeleted then selectionLoop (fun row => use (info.inserted row)) maxCount
  else selectionLoop (fun row => use (info.inserted row) && !use (info.deleted row)) maxCount

def fetch (startTime transactionId row : Nat) : Bool :=
  let use := useVersion startTime transactionId
  use (info.inserted row) && !use (info.deleted row)

/-- `ChunkVectorInfo::Delete`, with the exception it throws. The flag stays set then. -/
def delete (transactionId : Nat) (rows : List Nat) : ChunkVectorInfo × Option String :=
  let marked := { info with anyDeleted := true }
  let conflict := rows.findSome? fun row =>
    if info.deleted row ≠ notDeletedId then some "Conflict on tuple deletion!"
    else if info.inserted row ≥ transactionIdStart then
      some "Deleting non-committed tuples is not supported (for now...)"
    else none
  match conflict with
  | some message => (marked, some message)
  | none =>
    ({ marked with deleted := fun row => if row ∈ rows then transactionId else info.deleted row },
      none)

def commitDelete (commitId : Nat) (rows : List Nat) : ChunkVectorInfo :=
  { info with deleted := fun row => if row ∈ rows then commitId else info.deleted row }

def append (commitId start stop : Nat) : ChunkVectorInfo :=
  let flagged :=
    if start = 0 then { info with insertId := commitId }
    else if info.insertId ≠ commitId then
      { info with sameInsertedId := false, insertId := notDeletedId }
    else info
  { flagged with
    inserted := fun row => if start ≤ row ∧ row < stop then commitId else info.inserted row }

def commitAppend (commitId start stop : Nat) : ChunkVectorInfo :=
  { info with
    insertId := if info.sameInsertedId then commitId else info.insertId
    inserted := fun row => if start ≤ row ∧ row < stop then commitId else info.inserted row }

end ChunkVectorInfo

namespace ChunkInfo

def getSelVector (info : Option ChunkInfo) (startTime transactionId maxCount : Nat) :
    Nat × List Nat :=
  match info with
  | none => (maxCount, [])
  | some (.constant insertId deleteId) =>
    let use := useVersion startTime transactionId
    if use insertId && !use deleteId then (maxCount, []) else (0, [])
  | some (.vector info) => info.getSelVector startTime transactionId maxCount

def fetch (info : Option ChunkInfo) (startTime transactionId row : Nat) : Bool :=
  match info with
  | none => true
  | some (.constant insertId deleteId) =>
    useVersion startTime transactionId insertId && !useVersion startTime transactionId deleteId
  | some (.vector info) => info.fetch startTime transactionId row

/-- The body of the loop in `MorselInfo::Append`. Part of a vector cannot be appended to a
constant info. -/
def append (commitId start stop : Nat) (info : Option ChunkInfo) : Option (Option ChunkInfo) :=
  if start = 0 ∧ stop = standardVectorSize then some (some (.constant commitId notDeletedId))
  else
    match info with
    | none => some (some (.vector (ChunkVectorInfo.fresh.append commitId start stop)))
    | some (.vector info) => some (some (.vector (info.append commitId start stop)))
    | some (.constant _ _) => none

def commitAppend (commitId start stop : Nat) : Option ChunkInfo → Option (Option ChunkInfo)
  | none => none
  | some (.constant _ deleteId) =>
    if start = 0 ∧ stop = standardVectorSize then some (some (.constant commitId deleteId))
    else none
  | some (.vector info) => some (some (.vector (info.commitAppend commitId start stop)))

def toVector : Option ChunkInfo → ChunkVectorInfo
  | none => .fresh
  | some (.constant insertId _) =>
    { ChunkVectorInfo.fresh with insertId, inserted := fun _ => insertId }
  | some (.vector info) => info

def commitDelete (commitId : Nat) (rows : List Nat) : Option ChunkInfo → Option (Option ChunkInfo)
  | some (.vector info) => some (some (.vector (info.commitDelete commitId rows)))
  | none | some (.constant _ _) => none

end ChunkInfo

structure MorselInfo where
  start : Nat
  info : Nat → Option ChunkInfo

namespace MorselInfo

def empty (start : Nat) : MorselInfo := { start, info := fun _ => none }

variable (morsel : MorselInfo)

def getSelVector (transaction : Transaction) (vectorIdx maxCount : Nat) : Nat × List Nat :=
  ChunkInfo.getSelVector (morsel.info vectorIdx) transaction.startTime transaction.transactionId
    maxCount

def fetch (transaction : Transaction) (row : Nat) : Bool :=
  let vectorIdx := row / standardVectorSize
  ChunkInfo.fetch (morsel.info vectorIdx) transaction.startTime transaction.transactionId
    (row - vectorIdx * standardVectorSize)

def forVectors (change : Nat → Nat → Option ChunkInfo → Option (Option ChunkInfo))
    (morsel : MorselInfo) (morselStart count : Nat) : Option MorselInfo :=
  let morselEnd := morselStart + count
  let startVectorIdx := morselStart / standardVectorSize
  let endVectorIdx := (morselEnd - 1) / standardVectorSize
  let changeVector := fun vectorIdx info =>
    let start := if vectorIdx = startVectorIdx
      then morselStart - startVectorIdx * standardVectorSize else 0
    let stop := if vectorIdx = endVectorIdx
      then morselEnd - endVectorIdx * standardVectorSize else standardVectorSize
    change start stop info
  (loop changeVector (endVectorIdx + 1 - startVectorIdx) startVectorIdx morsel.info).map
    fun info => { morsel with info }

def append (morselStart count commitId : Nat) : Option MorselInfo :=
  morsel.forVectors (ChunkInfo.append commitId) morselStart count

def commitAppend (commitId morselStart count : Nat) : Option MorselInfo :=
  morsel.forVectors (ChunkInfo.commitAppend commitId) morselStart count

def revertAppend (tableStart : Nat) : MorselInfo :=
  let startRow := tableStart - morsel.start
  let startVectorIdx := (startRow + (standardVectorSize - 1)) / standardVectorSize
  { morsel with info := fun vectorIdx =>
      if startVectorIdx ≤ vectorIdx ∧ vectorIdx < morselVectorCount then none
      else morsel.info vectorIdx }

end MorselInfo

/-! Deleting rows -/

structure VersionDeleteState where
  morsel : MorselInfo
  currentChunk : Option Nat
  rows : List Nat
  pushed : List (Nat × List Nat)

namespace VersionDeleteState

def setInfo (state : VersionDeleteState) (vectorIdx : Nat) (info : ChunkVectorInfo) :
    VersionDeleteState :=
  { state with morsel :=
      { state.morsel with info := Function.update state.morsel.info vectorIdx (some (.vector info)) } }

def flush (transactionId : Nat) (state : VersionDeleteState) : VersionDeleteState × Option String :=
  match state.currentChunk, state.rows with
  | none, _ | _, [] => (state, none)
  | some vectorIdx, rows =>
    let (info, error) :=
      (ChunkInfo.toVector (state.morsel.info vectorIdx)).delete transactionId rows
    let marked := state.setInfo vectorIdx info
    match error with
    | some message => (marked, some message)
    | none => ({ marked with rows := [], pushed := state.pushed ++ [(vectorIdx, rows)] }, none)

theorem flush_eq {state : VersionDeleteState} {vector : Nat} {rows : List Nat}
    (current : state.currentChunk = some vector) {chunk : ChunkVectorInfo}
    (converted : state.morsel.info vector = some (.vector chunk)) (collected : state.rows = rows)
    (nonempty : rows ≠ []) (id : Nat) :
    state.flush id = match (chunk.delete id rows).2 with
      | some message => (state.setInfo vector (chunk.delete id rows).1, some message)
      | none => ({ state.setInfo vector (chunk.delete id rows).1 with
          rows := [], pushed := state.pushed ++ [(vector, rows)] }, none) := by
  obtain ⟨first, rest, shape⟩ := List.exists_cons_of_ne_nil nonempty
  rw [flush, current, collected, shape]
  cases thrown : (chunk.delete id (first :: rest)).2 with
  | none => simp only [converted, ChunkInfo.toVector, thrown]
  | some message => simp only [converted, ChunkInfo.toVector, thrown]

def delete (transactionId : Nat) (state : VersionDeleteState) (rowId : Nat) :
    VersionDeleteState × Option String :=
  let vectorIdx := rowId / standardVectorSize
  let idxInVector := rowId - vectorIdx * standardVectorSize
  if state.currentChunk ≠ some vectorIdx then
    match state.flush transactionId with
    | (flushed, some message) => (flushed, some message)
    | (flushed, none) =>
      ({ flushed.setInfo vectorIdx (ChunkInfo.toVector (flushed.morsel.info vectorIdx)) with
          currentChunk := some vectorIdx, rows := flushed.rows ++ [idxInVector] }, none)
  else ({ state with rows := state.rows ++ [idxInVector] }, none)

def deleteLoop (transactionId : Nat) (state : VersionDeleteState) :
    List Nat → VersionDeleteState × Option String
  | [] => state.flush transactionId
  | rowId :: rest =>
    match state.delete transactionId rowId with
    | (stopped, some message) => (stopped, some message)
    | (next, none) => deleteLoop transactionId next rest

end VersionDeleteState

def MorselInfo.delete (morsel : MorselInfo) (transactionId : Nat) (rowIds : List Nat) :
    VersionDeleteState × Option String :=
  VersionDeleteState.deleteLoop transactionId
    { morsel, currentChunk := none, rows := [], pushed := [] } rowIds

end GuinsooDB
