import GuinsooDB.Library.SortedEntries
import GuinsooDB.Transaction.Manager

/-!
The version chains of an update segment: for each vector a base node with the newest
values and a list of undo nodes, newest first. Fetching, conflict checking, merging,
rollback and cleanup follow `update_segment.cpp`.
-/

namespace GuinsooDB

open SortedEntries Function

/-- A flat vector and its validity mask; no mask means that every row is valid. -/
structure FlatVector (D : Type) where
  data : Nat → D
  validity : Option (Nat → Bool)

namespace FlatVector

variable {D : Type}

def allValid (vector : FlatVector D) : Bool := vector.validity.isNone

def rowIsValid (vector : FlatVector D) (row : Nat) : Bool :=
  match vector.validity with
  | none => true
  | some mask => mask row

theorem rowIsValid_of_allValid {vector : FlatVector D} (valid : vector.allValid = true)
    {row : Nat} : vector.rowIsValid row = true := by
  simp only [allValid, Option.isNone_iff_eq_none] at valid
  simp [rowIsValid, valid]

end FlatVector

/-- Validity segments store bits; every other physical type stores its own data. -/
inductive SegmentKind where
  | validity
  | data
  deriving Repr, DecidableEq

def Stored (D : Type) : SegmentKind → Type
  | .validity => Bool
  | .data => D

instance (D : Type) [DecidableEq D] : (kind : SegmentKind) → DecidableEq (Stored D kind)
  | .validity => inferInstanceAs (DecidableEq Bool)
  | .data => inferInstanceAs (DecidableEq D)

def extract {D : Type} : (kind : SegmentKind) → FlatVector D → Nat → Stored D kind
  | .validity, vector, row => vector.rowIsValid row
  | .data, vector, row => vector.data row

structure UpdateInfo (V : Type) where
  transaction : Nat
  versionNumber : Nat
  tuples : List (Nat × V)

structure UpdateNodeData (V : Type) where
  info : UpdateInfo V
  next : List (UpdateInfo V)

structure UpdateSegment (D : Type) (kind : SegmentKind) where
  start : Nat
  root : Option (Nat → Option (UpdateNodeData (Stored D kind)))

section Fetch

variable {V R : Type}

def mergeValidity (current : UpdateInfo V) (result : Nat → V) : Nat → V :=
  current.tuples.foldl (fun merged entry => update merged entry.1 entry.2) result

/-- `MergeUpdateInfo` copies the whole array when the node covers every tuple of the vector,
and otherwise runs the same loop as `MergeValidity`. -/
def mergeUpdateInfo (current : UpdateInfo V) (result : Nat → V) : Nat → V :=
  if current.tuples.length = standardVectorSize then
    fun row => (current.tuples[row]?.map Prod.snd).getD (result row)
  else mergeValidity current result

def mergeFunction : SegmentKind → UpdateInfo V → (Nat → V) → Nat → V
  | .validity => mergeValidity
  | .data => mergeUpdateInfo

def updatesForTransaction (chain : List (UpdateInfo V)) (startTime transactionId : Nat)
    (callback : UpdateInfo V → R → R) (result : R) : R :=
  chain.foldl (fun accumulated current =>
    if current.versionNumber > startTime && current.versionNumber ≠ transactionId then
      callback current accumulated
    else accumulated) result

end Fetch

section Chain

variable {V : Type}

def conflictLoop : List Nat → List (Nat × V) → Bool
  | [], _ => false
  | id :: ids, tuples =>
    match dropBelow id tuples with
    | [] => false
    | entry :: rest => if entry.1 = id then true else conflictLoop ids (entry :: rest)

def checkForConflicts (chain : List (UpdateInfo V)) (transaction : Transaction)
    (ids : List Nat) : Bool :=
  chain.any fun info =>
    info.versionNumber ≠ transaction.transactionId &&
      (info.versionNumber > transaction.startTime && conflictLoop ids info.tuples)

/-- The first loop of `MergeUpdateLoopInternal`: old values go into the undo node, fetched
from the node itself, from the base node, or from the base table. -/
def mergeUndoLoop (baseTable : Nat → V) :
    List (Nat × V) → List (Nat × V) → List (Nat × V) → List (Nat × V)
  | [], updateInfo, _ => updateInfo
  | (id, _) :: rest, updateInfo, baseInfo =>
    let written := takeBelow id updateInfo
    let remaining := dropBelow (id + 1) updateInfo
    match headAt id (dropBelow id updateInfo) with
    | some value => written ++ (id, value) :: mergeUndoLoop baseTable rest remaining baseInfo
    | none =>
      let skipped := dropBelow id baseInfo
      written ++ (id, (headAt id skipped).getD (baseTable id)) ::
        mergeUndoLoop baseTable rest remaining skipped

def mergeLoop : List (Nat × V) → List (Nat × V) → List (Nat × V)
  | [], old => old
  | (id, value) :: rest, old =>
    takeBelow id old ++ (id, value) :: mergeLoop rest (dropBelow (id + 1) old)

def rollbackLoop : List (Nat × V) → List (Nat × V) → List (Nat × V)
  | baseInfo, [] => baseInfo
  | baseInfo, (id, value) :: rest =>
    takeBelow id baseInfo ++ match dropBelow id baseInfo with
      | [] => []
      | slot :: later => rollbackLoop ((slot.1, value) :: later) rest

def modifyNode (versionNumber : Nat) (change : UpdateInfo V → UpdateInfo V) :
    List (UpdateInfo V) → List (UpdateInfo V)
  | [] => []
  | info :: rest =>
    if info.versionNumber = versionNumber then change info :: rest
    else info :: modifyNode versionNumber change rest

variable (transaction : Transaction) (transactionId : Nat)

def rollbackNode (node : UpdateNodeData V) : UpdateNodeData V :=
  match node.next.find? fun info => info.transaction = transactionId with
  | none => node
  | some rollbackInfo => {
      info := { node.info with tuples := rollbackLoop node.info.tuples rollbackInfo.tuples }
      next := node.next.filter fun info => info.transaction ≠ transactionId
    }

def cleanupNode (node : UpdateNodeData V) : UpdateNodeData V :=
  { node with next := node.next.filter fun info => info.transaction ≠ transactionId }

def commitNode (commitId : Nat) (node : UpdateNodeData V) : UpdateNodeData V :=
  { node with next := node.next.map fun info =>
      if info.transaction = transactionId then { info with versionNumber := commitId } else info }

def extendNode (baseTable : Nat → V) (entries : List (Nat × V)) (node : UpdateNodeData V) :
    UpdateNodeData V :=
  let present := node.next.any fun info => info.versionNumber = transaction.transactionId
  let fresh : UpdateInfo V := {
    transaction := transaction.transactionId
    versionNumber := transaction.transactionId
    tuples := []
  }
  let chain := if present then node.next else fresh :: node.next
  {
    info := { node.info with tuples := mergeLoop entries node.info.tuples }
    next := modifyNode transaction.transactionId (fun info =>
      { info with tuples := mergeUndoLoop baseTable entries info.tuples node.info.tuples }) chain
  }

def createNode (baseTable : Nat → V) (entries : List (Nat × V)) : UpdateNodeData V := {
  info := { transaction := 0, versionNumber := transactionIdStart - 1, tuples := entries }
  next := [{
    transaction := transaction.transactionId
    versionNumber := transaction.transactionId
    tuples := (keys entries).map fun id => (id, baseTable id)
  }]
}

end Chain

namespace UpdateSegment

variable {D : Type} {kind : SegmentKind}

def create (start : Nat) : UpdateSegment D kind := { start, root := none }

variable (segment : UpdateSegment D kind) (vectorIndex : Nat)

def info : Option (UpdateNodeData (Stored D kind)) :=
  segment.root.bind fun vectors => vectors vectorIndex

def setInfo (node : UpdateNodeData (Stored D kind)) : UpdateSegment D kind :=
  { segment with
    root := some (update (segment.root.getD fun _ => none) vectorIndex (some node)) }

def modifyInfo (change : UpdateNodeData (Stored D kind) → UpdateNodeData (Stored D kind)) :
    UpdateSegment D kind :=
  match segment.info vectorIndex with
  | none => segment
  | some node => segment.setInfo vectorIndex (change node)

def fetchUpdates (transaction : Transaction) (vectorIndex : Nat) (result : Nat → Stored D kind) :
    Nat → Stored D kind :=
  match segment.info vectorIndex with
  | none => result
  | some node =>
    updatesForTransaction (node.info :: node.next) transaction.startTime
      transaction.transactionId (mergeFunction kind) result

def fetchCommitted (result : Nat → Stored D kind) : Nat → Stored D kind :=
  match segment.info vectorIndex with
  | none => result
  | some node => mergeFunction kind node.info result

def rollbackUpdate (transactionId : Nat) : UpdateSegment D kind :=
  segment.modifyInfo vectorIndex (rollbackNode transactionId)

def cleanupUpdate (transactionId : Nat) : UpdateSegment D kind :=
  segment.modifyInfo vectorIndex (cleanupNode transactionId)

/-- The rows and positions that the statistics functions select: the numeric and string
ones leave out NULL rows, the validity one keeps every row. -/
def statisticsUpdate (kind : SegmentKind) (update : FlatVector D) (ids : List Nat) :
    List (Nat × Nat) :=
  match kind with
  | .validity => ids.zipIdx
  | .data => ids.zipIdx.filter fun entry => update.rowIsValid entry.2

/-- The fast path of validity segments: no versions yet and no NULL in base or update. -/
def skipsUpdate (update baseData : FlatVector D) : Bool :=
  kind = .validity && ((segment.info vectorIndex).isNone && (update.allValid && baseData.allValid))

def update (segment : UpdateSegment D kind) (transaction : Transaction) (update : FlatVector D)
    (ids : List Nat) (baseData : FlatVector D) : Except String (UpdateSegment D kind × List Nat) :=
  let vectorIndex := (ids.headD 0 - segment.start) / standardVectorSize
  let vectorOffset := segment.start + vectorIndex * standardVectorSize
  if segment.skipsUpdate vectorIndex update baseData then .ok (segment, [])
  else
    let sel := statisticsUpdate kind update ids
    if sel.isEmpty then .ok (segment, [])
    else
      let entries := sel.map fun entry => (entry.1 - vectorOffset, extract kind update entry.2)
      match segment.info vectorIndex with
      | some node =>
        if checkForConflicts node.next transaction (keys entries) then .error "Conflict on update!"
        else
          let present := node.next.any fun info => info.versionNumber = transaction.transactionId
          .ok (segment.setInfo vectorIndex
            (extendNode transaction (extract kind baseData) entries node),
            if present then [] else [vectorIndex])
      | none =>
        .ok (segment.setInfo vectorIndex
          (createNode transaction (extract kind baseData) entries), [vectorIndex])

end UpdateSegment

end GuinsooDB
