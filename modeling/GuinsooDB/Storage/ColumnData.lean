import Mathlib.Algebra.Ring.Nat
import GuinsooDB.Library.Transition
import GuinsooDB.Storage.ColumnSegment

/-!
The segments and the update segments of a column under appends, `RevertAppend`, updates,
checkpoints and reloads, and the scan over both. A step that would follow a null pointer, use
an index outside of an array or take a persistent segment for a transient one has no result.
-/

namespace GuinsooDB

structure UpdateMorsel where
  start : Nat
  count : Nat
  updated : List Nat
  deriving Repr, DecidableEq

structure DataPointer where
  rowStart : Nat
  tupleCount : Nat
  dictionaryOffset : Nat
  deriving Repr, DecidableEq

structure ColumnData where
  persistentRows : Nat
  data : List ColumnSegment
  updates : List UpdateMorsel
  disk : List DataPointer
  deriving Repr, DecidableEq

def findColumnSegment (data : List ColumnSegment) (row : Nat) : Option Nat :=
  SegmentTree.getSegmentIndex ColumnSegment.start ColumnSegment.count data row

def findUpdateMorsel (updates : List UpdateMorsel) (row : Nat) : Option Nat :=
  SegmentTree.getSegmentIndex UpdateMorsel.start UpdateMorsel.count updates row

namespace UpdateMorsel

def empty (start : Nat) : UpdateMorsel where
  start := start
  count := 0
  updated := []

def baseVectorIndex (morsel : UpdateMorsel) : Nat := morsel.start / standardVectorSize

def growLoop : Nat → List UpdateMorsel → UpdateMorsel → Nat → List UpdateMorsel
  | 0, front, last, _ => front ++ [last]
  | fuel + 1, front, last, remaining =>
    if remaining = 0 then front ++ [last]
    else
      let toAppend := min remaining (morselSize - last.count)
      let grown := { last with count := last.count + toAppend }
      if grown.count = morselSize then
        growLoop fuel (front ++ [grown]) (empty (grown.start + grown.count))
          (remaining - toAppend)
      else growLoop fuel front grown (remaining - toAppend)

def loadLoop (persistentRows : Nat) : Nat → Nat → List UpdateMorsel
  | 0, _ => []
  | fuel + 1, rowCount =>
    if rowCount < persistentRows then
      let next := min (rowCount + morselSize) persistentRows
      { start := rowCount, count := next - rowCount, updated := [] } ::
        loadLoop persistentRows fuel next
    else if rowCount % morselSize = 0 then [empty rowCount]
    else []

def load (persistentRows : Nat) : List UpdateMorsel := loadLoop persistentRows (persistentRows + 1) 0

def skip : List UpdateMorsel → Nat → Option (List UpdateMorsel × Nat)
  | [], _ => none
  | morsel :: rest, vectorIndex =>
    if morselVectorCount ≤ vectorIndex then skip rest (vectorIndex - morselVectorCount)
    else some (morsel :: rest, vectorIndex)

def findSegment (updates : List UpdateMorsel) (endVectorIndex : Nat) :
    Option (List UpdateMorsel) :=
  match updates with
  | [] => none
  | first :: _ => (skip updates (endVectorIndex - first.baseVectorIndex)).map Prod.fst

def hasUpdates : Nat → List UpdateMorsel → Nat → Option Bool
  | 0, _, _ => some false
  | left + 1, updates, vector =>
    match updates with
    | [] => none
    | first :: _ =>
      if vector < first.baseVectorIndex then none
      else
        match skip updates (vector - first.baseVectorIndex) with
        | some (morsel :: rest, vectorIndex) =>
          if vectorIndex ∈ morsel.updated then some true
          else hasUpdates left (morsel :: rest) (vector + 1)
        | _ => none

end UpdateMorsel

namespace ColumnData

def empty : ColumnData where
  persistentRows := 0
  data := []
  updates := []
  disk := []

def appendTarget (kind : ColumnKind) (column : ColumnData) : List ColumnSegment × ColumnSegment :=
  match column.data.getLast? with
  | none => ([], .transient kind column.persistentRows)
  | some segment =>
    (column.data.dropLast,
      if segment.segmentType = .persistent then segment.toTransient kind else segment)

variable (column : ColumnData)

def updateTarget : List UpdateMorsel × UpdateMorsel :=
  match column.updates.getLast? with
  | none => ([], .empty 0)
  | some morsel => (column.updates.dropLast, morsel)

def appendLoop (kind : ColumnKind) :
    Nat → List ColumnSegment → ColumnSegment → List Appended → List ColumnSegment
  | 0, front, current, _ => front ++ [current]
  | fuel + 1, front, current, values =>
    let appended := current.append kind values
    let copiedElements := appended.count - current.count
    if copiedElements = values.length then front ++ [appended]
    else appendLoop kind fuel (front ++ [appended])
      (.transient kind (appended.start + appended.count)) (values.drop copiedElements)

def append (kind : ColumnKind) (column : ColumnData) (values : List Appended) : ColumnData :=
  let target := column.appendTarget kind
  let updateTarget := column.updateTarget
  { column with
    updates := UpdateMorsel.growLoop (values.length + 1) updateTarget.1 updateTarget.2 values.length
    data := appendLoop kind (values.length + 2) target.1 target.2 values }

def revertAppend (startRow : Nat) : Option ColumnData :=
  match column.data.getLast? with
  | none => none
  | some last =>
    if last.start + last.count ≤ startRow then some column
    else
      (findColumnSegment column.data startRow).bind fun segmentIndex =>
        column.data[segmentIndex]?.bind fun segment =>
          if segment.segmentType = .persistent then none
          else
            (findUpdateMorsel column.updates startRow).bind fun updateIndex =>
              column.updates[updateIndex]?.map fun morsel =>
                { column with
                  data := column.data.take segmentIndex ++
                    [{ segment with count := startRow - segment.start }]
                  updates := column.updates.take updateIndex ++
                    [{ morsel with count := startRow - morsel.start }] }

/-- An update of a row whose segments are found. Updates that are skipped for a validity mask
without changes set nothing. -/
def update (row : Nat) (skipped : Bool) : Option ColumnData :=
  (findColumnSegment column.data row).bind fun _ =>
    (findUpdateMorsel column.updates row).map fun updateIndex =>
      { column with
        updates := column.updates.modify updateIndex fun morsel =>
          if skipped then morsel
          else { morsel with
            updated := (row - morsel.start) / standardVectorSize :: morsel.updated } }

end ColumnData

structure ColumnCheckpointState where
  newTree : List ColumnSegment
  dataPointers : List DataPointer
  current : ColumnSegment
  deriving Repr, DecidableEq

namespace ColumnCheckpointState

variable (kind : ColumnKind)

def create : ColumnCheckpointState where
  newTree := []
  dataPointers := []
  current := .transient kind 0

variable (state : ColumnCheckpointState)

def createEmptySegment : ColumnCheckpointState :=
  { state with current := .transient kind 0 }

def rowStart : Nat :=
  match state.dataPointers.getLast? with
  | none => 0
  | some pointer => pointer.rowStart + pointer.tupleCount

def flushSegment : ColumnCheckpointState :=
  if state.current.count = 0 then state
  else
    { state with
      newTree := state.newTree ++
        [.persistent kind state.rowStart state.current.count state.current.dictionaryOffset]
      dataPointers := state.dataPointers ++
        [{ rowStart := state.rowStart
           tupleCount := state.current.count
           dictionaryOffset := state.current.dictionaryOffset }] }

def appendData (kind : ColumnKind) :
    Nat → ColumnCheckpointState → List Appended → ColumnCheckpointState
  | 0, state, _ => state
  | fuel + 1, state, values =>
    if values = [] then state
    else
      let appended := state.current.append kind values
      let copied := appended.count - state.current.count
      let filled := { state with current := appended }
      if copied = values.length then filled
      else appendData kind fuel ((filled.flushSegment kind).createEmptySegment kind)
        (values.drop copied)

def keepSegment (segment : ColumnSegment) : ColumnCheckpointState :=
  let flushed :=
    if state.current.count > 0 then (state.flushSegment kind).createEmptySegment kind else state
  { flushed with
    newTree := flushed.newTree ++ [segment]
    dataPointers := flushed.dataPointers ++
      [{ rowStart := segment.start
         tupleCount := segment.count
         dictionaryOffset := segment.dictionaryOffset }] }

end ColumnCheckpointState

namespace ColumnData

/-- The loop over the vectors of a segment that is written again. `merged` gives the value of
a row with its updates. -/
def rewriteVectors (kind : ColumnKind) (merged : Nat → Appended) (segment : ColumnSegment) :
    Nat → Nat → ColumnCheckpointState → List UpdateMorsel → Nat → Nat →
      Option (ColumnCheckpointState × List UpdateMorsel × Nat)
  | 0, _, state, updates, _, updateVectorIndex => some (state, updates, updateVectorIndex)
  | left + 1, vectorIndex, state, updates, baseUpdateIndex, updateVectorIndex =>
    if updates = [] ∨ updateVectorIndex < baseUpdateIndex ∨
        morselVectorCount ≤ updateVectorIndex - baseUpdateIndex then none
    else
      let count := min (segment.count - vectorIndex * standardVectorSize) standardVectorSize
      let rows := List.range' (segment.start + vectorIndex * standardVectorSize) count
      let written := state.appendData kind (count + 1) (rows.map merged)
      if morselVectorCount ≤ updateVectorIndex + 1 - baseUpdateIndex then
        rewriteVectors kind merged segment left (vectorIndex + 1) written updates.tail
          (baseUpdateIndex + morselVectorCount) (updateVectorIndex + 1)
      else rewriteVectors kind merged segment left (vectorIndex + 1) written updates
        baseUpdateIndex (updateVectorIndex + 1)

def rewriteSegment (kind : ColumnKind) (merged : Nat → Appended) (segment : ColumnSegment)
    (state : ColumnCheckpointState) (updates : List UpdateMorsel) (updateVectorIndex : Nat) :
    Option (ColumnCheckpointState × List UpdateMorsel × Nat) :=
  match updates with
  | [] => none
  | first :: _ =>
    rewriteVectors kind merged segment (vectorsFor segment.count) 0 state updates
      first.baseVectorIndex updateVectorIndex

def mustWrite (segment : ColumnSegment) (updates : List UpdateMorsel) : Option Bool :=
  if segment.segmentType = .persistent then
    let startVectorIndex := segment.start / standardVectorSize
    let endVectorIndex := (segment.start + segment.count) / standardVectorSize
    UpdateMorsel.hasUpdates (endVectorIndex + 1 - startVectorIndex) updates startVectorIndex
  else some true

def checkpointLoop (kind : ColumnKind) (merged : Nat → Appended) :
    List ColumnSegment → ColumnCheckpointState → List UpdateMorsel → Nat →
      Option ColumnCheckpointState
  | [], state, _, _ => some state
  | segment :: rest, state, updates, updateVectorIndex =>
    (mustWrite segment updates).bind fun writes =>
      if writes then
        (rewriteSegment kind merged segment state updates updateVectorIndex).bind
          fun (state, updates, updateVectorIndex) =>
            checkpointLoop kind merged rest state updates updateVectorIndex
      else
        let endVectorIndex := (segment.start + segment.count) / standardVectorSize
        (UpdateMorsel.findSegment updates endVectorIndex).bind fun updates =>
          checkpointLoop kind merged rest (state.keepSegment kind segment) updates endVectorIndex

def checkpoint (kind : ColumnKind) (column : ColumnData) (merged : Nat → Appended) :
    Option ColumnData :=
  if column.data = [] then some { column with disk := [] }
  else
    (checkpointLoop kind merged column.data (.create kind) column.updates 0).map fun state =>
      let flushed := state.flushSegment kind
      { column with
        data := flushed.newTree
        disk := flushed.dataPointers
        updates := column.updates.map fun morsel => { morsel with updated := [] } }

def reload (kind : ColumnKind) (column : ColumnData) : ColumnData :=
  let persistentRows := (column.disk.map DataPointer.tupleCount).sum
  { persistentRows := persistentRows
    data := column.disk.map fun pointer =>
      .persistent kind pointer.rowStart pointer.tupleCount pointer.dictionaryOffset
    updates := UpdateMorsel.load persistentRows
    disk := column.disk }

end ColumnData

structure ScanPosition where
  current : List ColumnSegment
  vectorIndex : Nat
  updates : List UpdateMorsel
  vectorIndexUpdates : Nat
  deriving Repr, DecidableEq

namespace ScanPosition

def initial (column : ColumnData) : ScanPosition where
  current := column.data
  vectorIndex := 0
  updates := column.updates
  vectorIndexUpdates := 0

variable (position : ScanPosition)

def next : Option ScanPosition :=
  match position.current with
  | [] => some position
  | segment :: later =>
    let vectorIndex := position.vectorIndex + 1
    let leaves := segment.count ≤ vectorIndex * standardVectorSize
    let moved :=
      { position with
        current := if leaves then later else position.current
        vectorIndex := if leaves then 0 else vectorIndex
        vectorIndexUpdates := position.vectorIndexUpdates + 1 }
    if morselVectorCount ≤ moved.vectorIndexUpdates then
      match position.updates with
      | [] => none
      | _ :: later => some { moved with updates := later, vectorIndexUpdates := 0 }
    else some moved

def rows : Option (List Nat) :=
  position.current.head?.map fun segment =>
    let offset := position.vectorIndex * standardVectorSize
    List.range' (segment.start + offset) (min (segment.count - offset) standardVectorSize)

def updateRows : Option (List Nat) :=
  position.updates.head?.map fun morsel =>
    let offset := position.vectorIndexUpdates * standardVectorSize
    List.range' (morsel.start + offset) (min (morsel.count - offset) standardVectorSize)

end ScanPosition

/-! A column with its validity column -/

structure StandardColumnData where
  column : ColumnData
  validity : ColumnData
  deriving Repr, DecidableEq

inductive ColumnOperation where
  | append (values : List Appended)
  | revertAppend (startRow : Nat)
  | update (row : Nat) (skipsValidity : Bool)
  | checkpoint (merged : Nat → Appended)
  | reload

namespace StandardColumnData

def empty : StandardColumnData where
  column := .empty
  validity := .empty

def step (kind : ColumnKind) (data : StandardColumnData) :
    ColumnOperation → Option StandardColumnData
  | .append values =>
    some { column := data.column.append kind values
           validity := data.validity.append .validity values }
  | .revertAppend startRow =>
    (data.column.revertAppend startRow).bind fun column =>
      (data.validity.revertAppend startRow).map fun validity => { column, validity }
  | .update row skipsValidity =>
    (data.column.update row false).bind fun column =>
      (data.validity.update row skipsValidity).map fun validity => { column, validity }
  | .checkpoint merged =>
    (data.column.checkpoint kind merged).bind fun column =>
      (data.validity.checkpoint .validity merged).map fun validity => { column, validity }
  | .reload =>
    some { column := data.column.reload kind
           validity := data.validity.reload .validity }

end StandardColumnData

structure VectorVisit where
  column : List Nat
  columnUpdates : List Nat
  validity : List Nat
  validityUpdates : List Nat
  deriving Repr, DecidableEq

structure ColumnScan where
  column : ScanPosition
  validity : ScanPosition
  deriving Repr, DecidableEq

namespace ColumnScan

def initial (data : StandardColumnData) : ColumnScan where
  column := .initial data.column
  validity := .initial data.validity

def next (scan : ColumnScan) : Option ColumnScan :=
  if scan.column.current = [] then some scan
  else
    scan.column.next.bind fun column =>
      scan.validity.next.map fun validity => { column, validity }

def visit (scan : ColumnScan) : Option VectorVisit :=
  scan.column.rows.bind fun column =>
    scan.column.updateRows.bind fun columnUpdates =>
      scan.validity.rows.bind fun validity =>
        scan.validity.updateRows.map fun validityUpdates =>
          { column, columnUpdates, validity, validityUpdates }

def visits : Nat → ColumnScan → Option (List VectorVisit)
  | 0, _ => some []
  | vectors + 1, scan =>
    scan.visit.bind fun visit =>
      scan.next.bind fun next => (visits vectors next).map (visit :: ·)

end ColumnScan

end GuinsooDB
