import GuinsooDB.Library.VersionChain
import GuinsooDB.Transaction.Manager

/-!
`CatalogSet`: names map to chains of mapping values, mapping values point to chains of
entry versions, and both are stamped with the transaction that wrote them.

Chains are lists, newest first. An entry version has an address, by which the undo buffer
refers to it; its parent is the version before it in the list. The answers of the
dependency manager and of the virtual `AlterEntry` are inputs of the calls.
-/

namespace GuinsooDB

open VersionChain Function

inductive CatalogType (D : Type) where
  | invalid
  | deletedEntry
  | object (content : D)
  deriving Repr, DecidableEq

def CatalogType.content {D : Type} : CatalogType D → Option D
  | .object content => some content
  | .invalid | .deletedEntry => none

structure CatalogEntry (Name D : Type) where
  address : Nat
  type : CatalogType D
  name : Name
  timestamp : Nat
  deleted : Bool
  internal : Bool
  deriving Repr, DecidableEq

structure MappingValue where
  index : Nat
  timestamp : Nat
  deleted : Bool
  deriving Repr, DecidableEq

inductive CatalogError (Name : Type) where
  | conflictOnCreate (name : Name)
  | conflictOnAlter (name : Name)
  | conflictOnName (name : Name)
  | internalAlter (name : Name)
  | internalDrop (name : Name)
  | renameTaken (original new : Name)
  | unsupportedAlter
  | dependency
  | nullEntry
  deriving Repr, DecidableEq

def CatalogError.message : CatalogError String → String
  | .conflictOnCreate name => s!"Catalog write-write conflict on create with \"{name}\""
  | .conflictOnAlter name => s!"Catalog write-write conflict on alter with \"{name}\""
  | .conflictOnName name => s!"Catalog write-write conflict on name \"{name}\""
  | .internalAlter name =>
    s!"Cannot alter entry \"{name}\" because it is an internal system entry"
  | .internalDrop name => s!"Cannot drop entry \"{name}\" because it is an internal system entry"
  | .renameTaken original new =>
    s!"Could not rename \"{original}\" to \"{new}\": another entry with this name already exists!"
  | .unsupportedAlter => "Unsupported alter type for catalog entry!"
  | .dependency => "there are entries that depend on it"
  | .nullEntry => "null entry"

/-- What `CatalogEntry::AlterEntry` did: throw, return no entry, or return the new version. -/
inductive Altered (Name D : Type) where
  | unsupported
  | unchanged
  | entry (name : Name) (content : D)
  deriving Repr, DecidableEq

inductive CatalogCall (Name D : Type) where
  | create (name : Name) (content : D) (internal refused : Bool)
  | alter (name : Name) (altered : Altered Name D) (refused : Bool)
  | drop (name : Name) (refused : Bool)
  deriving Repr, DecidableEq

structure CatalogSet (Name D : Type) where
  mapping : Name → List MappingValue
  names : List Name
  entries : Nat → List (CatalogEntry Name D)
  currentEntry : Nat
  nextAddress : Nat

structure CallResult (Name D : Type) where
  set : CatalogSet Name D
  pushed : Option Nat
  answer : Except (CatalogError Name) Bool

def hasConflict (transaction : Transaction) (timestamp : Nat) : Bool :=
  decide (timestamp ≥ transactionIdStart ∧ timestamp ≠ transaction.transactionId) ||
    decide (timestamp < transactionIdStart ∧ timestamp > transaction.startTime)

def useTimestamp (transaction : Transaction) (timestamp : Nat) : Bool :=
  decide (timestamp = transaction.transactionId) || decide (timestamp < transaction.startTime)

namespace CatalogSet

variable {Name D : Type}

def initial : CatalogSet Name D := {
  mapping := fun _ => []
  names := []
  entries := fun _ => []
  currentEntry := 0
  nextAddress := 0
}

def getEntryForTransaction (set : CatalogSet Name D) (transaction : Transaction) (index : Nat) :
    Option (CatalogEntry Name D) :=
  pick (fun entry => useTimestamp transaction entry.timestamp) (set.entries index)

def visibleMapping (transaction : Transaction) (chain : List MappingValue) : Option MappingValue :=
  pick (fun value => useTimestamp transaction value.timestamp) chain

variable [DecidableEq Name]

variable (lower : Name → Name) (set : CatalogSet Name D) (transaction : Transaction)

/-- The chain that `GetMapping` walks: that of the name itself, or of the only name in the
map that has the same lower case. -/
def mappingOf (name : Name) (allowLowercaseAlias : Bool) : List MappingValue :=
  match set.mapping name with
  | [] =>
    if allowLowercaseAlias then
      match set.names.filter fun key =>
          decide (set.mapping key ≠ []) && decide (lower key = lower name) with
      | [candidate] => set.mapping candidate
      | _ => []
    else []
  | latest :: older => latest :: older

def getMapping (name : Name) (allowLowercaseAlias : Bool) : Option MappingValue :=
  visibleMapping transaction (set.mappingOf lower name allowLowercaseAlias)

def setMapping (name : Name) (chain : List MappingValue) : CatalogSet Name D :=
  { set with
    mapping := update set.mapping name chain
    names := if name ∈ set.names then set.names else set.names ++ [name] }

def setEntries (index : Nat) (chain : List (CatalogEntry Name D)) : CatalogSet Name D :=
  { set with entries := update set.entries index chain }

def putMapping (name : Name) (index : Nat) : Except (CatalogError Name) (CatalogSet Name D) :=
  let value : MappingValue :=
    { index, timestamp := transaction.transactionId, deleted := false }
  match set.mapping name with
  | [] => .ok (set.setMapping name [value])
  | latest :: older =>
    if hasConflict transaction latest.timestamp then .error (.conflictOnName name)
    else .ok (set.setMapping name (value :: latest :: older))

def deleteMapping (name : Name) : CatalogSet Name D :=
  match set.mapping name with
  | [] => set
  | latest :: older =>
    set.setMapping name
      ({ index := latest.index, timestamp := transaction.transactionId, deleted := true } ::
        latest :: older)

def replaceEntry (index : Nat) (type : CatalogType D) (name : Name) (deleted internal : Bool) :
    CallResult Name D :=
  match set.entries index with
  | [] => { set, pushed := none, answer := .error .nullEntry }
  | current :: older =>
    let value : CatalogEntry Name D := {
      address := set.nextAddress
      type
      name
      timestamp := transaction.transactionId
      deleted
      internal
    }
    {
      set := { set.setEntries index (value :: current :: older) with
        nextAddress := set.nextAddress + 1 }
      pushed := some current.address
      answer := .ok true
    }

def addDummy (name : Name) : CatalogSet Name D :=
  { set.setEntries set.currentEntry [{
      address := set.nextAddress
      type := .invalid
      name
      timestamp := 0
      deleted := true
      internal := false
    }] with
    currentEntry := set.currentEntry + 1
    nextAddress := set.nextAddress + 1 }

def insertEntry (index : Nat) (name : Name) (content : D) (internal refused : Bool) :
    CallResult Name D :=
  if refused then { set, pushed := none, answer := .error .dependency }
  else set.replaceEntry transaction index (.object content) name false internal

def createFresh (name : Name) (content : D) (internal refused : Bool) : CallResult Name D :=
  let grown := set.addDummy name
  match grown.putMapping transaction name set.currentEntry with
  | .error error => { set := grown, pushed := none, answer := .error error }
  | .ok mapped =>
    mapped.insertEntry transaction set.currentEntry name content internal refused

def createEntry (name : Name) (content : D) (internal refused : Bool) : CallResult Name D :=
  match set.getMapping lower transaction name false with
  | none => set.createFresh transaction name content internal refused
  | some value =>
    if value.deleted then set.createFresh transaction name content internal refused
    else
      match set.entries value.index with
      | [] => { set, pushed := none, answer := .error .nullEntry }
      | current :: _ =>
        if hasConflict transaction current.timestamp then
          { set, pushed := none, answer := .error (.conflictOnCreate current.name) }
        else if current.deleted then
          set.insertEntry transaction value.index name content internal refused
        else { set, pushed := none, answer := .ok false }

/-- Both overloads of `GetEntryInternal`: the chain and its newest version, if it is live. -/
def getEntryInternal (name : Name) :
    Except (CatalogError Name) (Option (Nat × CatalogEntry Name D)) :=
  match set.getMapping lower transaction name true with
  | none => .ok none
  | some value =>
    if value.deleted then .ok none
    else
      match set.entries value.index with
      | [] => .error .nullEntry
      | current :: _ =>
        if hasConflict transaction current.timestamp then
          .error (.conflictOnAlter current.name)
        else if current.deleted then .ok none
        else .ok (some (value.index, current))

def nameTaken (name : Name) : Bool :=
  match set.getMapping lower transaction name true with
  | none => false
  | some value => !value.deleted &&
      (set.getEntryForTransaction transaction value.index).any fun entry => !entry.deleted

def replaceAltered (index : Nat) (name : Name) (content : D) (refused : Bool) : CallResult Name D :=
  if refused then { set, pushed := none, answer := .error .dependency }
  else set.replaceEntry transaction index (.object content) name false false

def renameEntry (index : Nat) (original name : Name) (content : D) (refused : Bool) :
    CallResult Name D :=
  if set.nameTaken lower transaction name then
    { set, pushed := none, answer := .error (.renameTaken original name) }
  else
    match set.putMapping transaction name index with
    | .error error => { set, pushed := none, answer := .error error }
    | .ok mapped =>
      (mapped.deleteMapping transaction original).replaceAltered transaction index name content
        refused

def alterEntry (name : Name) (altered : Altered Name D) (refused : Bool) : CallResult Name D :=
  match set.getEntryInternal lower transaction name with
  | .error error => { set, pushed := none, answer := .error error }
  | .ok none => { set, pushed := none, answer := .ok false }
  | .ok (some (index, entry)) =>
    if entry.internal then
      { set, pushed := none, answer := .error (.internalAlter entry.name) }
    else
      match altered with
      | .unsupported => { set, pushed := none, answer := .error .unsupportedAlter }
      | .unchanged => { set, pushed := none, answer := .ok true }
      | .entry newName content =>
        if newName = entry.name then
          set.replaceAltered transaction index newName content refused
        else set.renameEntry lower transaction index entry.name newName content refused

def dropEntry (name : Name) (refused : Bool) : CallResult Name D :=
  match set.getEntryInternal lower transaction name with
  | .error error => { set, pushed := none, answer := .error error }
  | .ok none => { set, pushed := none, answer := .ok false }
  | .ok (some (index, entry)) =>
    if entry.internal then
      { set, pushed := none, answer := .error (.internalDrop entry.name) }
    else if refused then { set, pushed := none, answer := .error .dependency }
    else set.replaceEntry transaction index .deletedEntry entry.name true false

def call : CatalogCall Name D → CallResult Name D
  | .create name content internal refused =>
    set.createEntry lower transaction name content internal refused
  | .alter name altered refused => set.alterEntry lower transaction name altered refused
  | .drop name refused => set.dropEntry lower transaction name refused

def createDefault (name : Name) (content : D) :
    CatalogSet Name D × Except (CatalogError Name) (Option D) :=
  let index := set.currentEntry
  let grown := { set with currentEntry := set.currentEntry + 1 }
  match grown.putMapping transaction name index with
  | .error error => (grown, .error error)
  | .ok mapped =>
    let chain := (mapped.mapping name).modifyHead fun latest => { latest with timestamp := 0 }
    ({ (mapped.setMapping name chain).setEntries index [{
        address := set.nextAddress
        type := .object content
        name
        timestamp := 0
        deleted := false
        internal := true
      }] with nextAddress := set.nextAddress + 1 }, .ok (some content))

def noEntry (defaults : Name → Option D) (set : CatalogSet Name D) (transaction : Transaction)
    (name : Name) : CatalogSet Name D × Except (CatalogError Name) (Option D) :=
  match defaults name with
  | none => (set, .ok none)
  | some content => set.createDefault transaction name content

def getEntry (defaults : Name → Option D) (set : CatalogSet Name D) (transaction : Transaction)
    (name : Name) : CatalogSet Name D × Except (CatalogError Name) (Option D) :=
  match set.getMapping lower transaction name true with
  | none => set.noEntry defaults transaction name
  | some value =>
    if value.deleted then set.noEntry defaults transaction name
    else
      match set.getEntryForTransaction transaction value.index with
      | none => (set, .error .nullEntry)
      | some current =>
        if current.deleted ||
            (decide (current.name ≠ name) && !useTimestamp transaction value.timestamp) then
          (set, .ok none)
        else (set, .ok current.type.content)

/-! Addresses in the undo buffer -/

/-- A chain cut at an entry: the versions above its parent, the parent, the entry, and the
versions below it. -/
structure Cut (Name D : Type) where
  above : List (CatalogEntry Name D)
  parent : CatalogEntry Name D
  entry : CatalogEntry Name D
  below : List (CatalogEntry Name D)

def cutAt (address : Nat) : List (CatalogEntry Name D) → Option (Cut Name D)
  | parent :: entry :: below =>
    if entry.address = address then some { above := [], parent, entry, below }
    else (cutAt address (entry :: below)).map fun cut =>
      { cut with above := parent :: cut.above }
  | _ => none

def locate (address : Nat) : Option (Nat × Cut Name D) :=
  (List.range set.currentEntry).findSome? fun index =>
    (cutAt address (set.entries index)).map fun cut => (index, cut)

def popMapping (name : Name) : CatalogSet Name D :=
  set.setMapping name (set.mapping name).tail

/-- Make an entry the newest version again: in its parent's place under the versions above,
or as the root of the chain that its name maps to. -/
def restoreEntry (index : Nat) (cut : Cut Name D) : Option (CatalogSet Name D) :=
  match cut.above with
  | _ :: _ => some (set.setEntries index (cut.above ++ cut.entry :: cut.below))
  | [] =>
    (set.mapping cut.entry.name).head?.map fun latest =>
      (set.setEntries index [cut.parent]).setEntries latest.index (cut.entry :: cut.below)

def restoreMapping (entry : CatalogEntry Name D) : Option (CatalogSet Name D) :=
  (set.mapping entry.name).head?.map fun latest =>
    match entry.type with
    | .invalid => set.popMapping entry.name
    | .deletedEntry | .object _ => if latest.deleted then set.popMapping entry.name else set

/-- `CatalogSet::Undo`. An address without an entry or a name without a mapping value is a
null or dangling pointer, and has no result. -/
def undo (address : Nat) : Option (CatalogSet Name D) := do
  let (index, cut) ← set.locate address
  let cleared := if cut.entry.name = cut.parent.name then set
    else set.popMapping cut.parent.name
  let restored ← cleared.restoreEntry index cut
  restored.restoreMapping cut.entry

def undoAll (addresses : List Nat) : Option (CatalogSet Name D) :=
  addresses.reverse.foldlM undo set

def stampEntry (address timestamp : Nat) : CatalogSet Name D :=
  { set with
    entries := fun index => (set.entries index).map fun entry =>
      if entry.address = address then { entry with timestamp } else entry }

def stampMapping (name : Name) (timestamp : Nat) : CatalogSet Name D :=
  { set with
    mapping := update set.mapping name
      ((set.mapping name).modifyHead fun latest => { latest with timestamp }) }

def updateTimestamp (entry : CatalogEntry Name D) (timestamp : Nat) : CatalogSet Name D :=
  (set.stampEntry entry.address timestamp).stampMapping entry.name timestamp

def commitEntry (commitId : Nat) (set : CatalogSet Name D) (address : Nat) :
    Option (CatalogSet Name D) :=
  (set.locate address).map fun (_, cut) =>
    let stamped := set.updateTimestamp cut.parent commitId
    if cut.entry.name = cut.parent.name then stamped
    else stamped.updateTimestamp cut.entry commitId

def cleanupEntry (address : Nat) : Option (CatalogSet Name D) :=
  (set.locate address).map fun (index, cut) =>
    set.setEntries index (cut.above ++ cut.parent :: cut.below)

end CatalogSet

/-! The set among the transactions that work on it -/

/-- The undo buffer of a transaction, by its id, lists the entries its calls pushed. -/
structure CatalogState (Name D : Type) where
  manager : TransactionManager
  set : CatalogSet Name D
  undo : Nat → List Nat

inductive CatalogAction (Name D : Type) where
  | start
  | call (transactionId : Nat) (request : CatalogCall Name D)
  | lookup (transactionId : Nat) (name : Name)
  | commit (transactionId : Nat)
  | rollback (transactionId : Nat)
  deriving Repr, DecidableEq

namespace CatalogState

variable {Name D : Type}

def initial : CatalogState Name D :=
  { manager := .initial, set := .initial, undo := fun _ => [] }

variable [DecidableEq Name]

def startTransaction (state : CatalogState Name D) : CatalogState Name D :=
  match state.manager.startTransaction with
  | .ok (manager, _) => { state with manager }
  | .error _ => state

def perform (lower : Name → Name) (state : CatalogState Name D) (transaction : Transaction)
    (request : CatalogCall Name D) : CatalogState Name D :=
  let result := state.set.call lower transaction request
  { state with
    set := result.set
    undo := update state.undo transaction.transactionId
      (state.undo transaction.transactionId ++ result.pushed.toList) }

def removeTransaction (state : CatalogState Name D) (transaction : Transaction) :
    Option (CatalogState Name D) :=
  let (manager, cleaned) := state.manager.removeTransaction transaction
  ((cleaned.flatMap fun old => state.undo old.transactionId).foldlM CatalogSet.cleanupEntry
    state.set).map fun set => { state with manager, set }

def commitTransaction (state : CatalogState Name D) (transaction : Transaction) :
    Option (CatalogState Name D) := do
  let (manager, commitId) := state.manager.drawCommitId
  let set ← (state.undo transaction.transactionId).foldlM (CatalogSet.commitEntry commitId) state.set
  removeTransaction { state with manager, set } { transaction with commitId }

def rollbackTransaction (state : CatalogState Name D) (transaction : Transaction) :
    Option (CatalogState Name D) := do
  let set ← state.set.undoAll (state.undo transaction.transactionId)
  removeTransaction { state with set } transaction

def step (lower : Name → Name) (defaults : Name → Option D) (state : CatalogState Name D) :
    CatalogAction Name D → Option (CatalogState Name D)
  | .start => some state.startTransaction
  | .call transactionId request =>
    match state.manager.find transactionId with
    | none => some state
    | some transaction => some (state.perform lower transaction request)
  | .lookup transactionId name =>
    match state.manager.find transactionId with
    | none => some state
    | some transaction =>
      some { state with set := (state.set.getEntry lower defaults transaction name).1 }
  | .commit transactionId =>
    match state.manager.find transactionId with
    | none => some state
    | some transaction => state.commitTransaction transaction
  | .rollback transactionId =>
    match state.manager.find transactionId with
    | none => some state
    | some transaction => state.rollbackTransaction transaction

end CatalogState

end GuinsooDB
