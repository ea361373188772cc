import Mathlib.Algebra.Ring.Nat
import Mathlib.Data.List.Basic

/-!
`BufferManager` and its `BlockHandle`s. A call is one step, with the errors that reading and
writing blocks have during it. Handles are named by the order in which they were created.
-/

namespace GuinsooDB

def maximumBlock : Nat := 4611686018427388000

def blockAllocSize : Nat := 262144

def addWord (first second : Nat) : Nat := (first + second) % 2 ^ 64

def subWord (first second : Nat) : Nat := (first + (2 ^ 64 - second % 2 ^ 64)) % 2 ^ 64

structure BlockHandle where
  blockId : Nat
  readers : Nat
  loaded : Bool
  buffer : Bool
  evictionTimestamp : Nat
  canDestroy : Bool
  memoryUsage : Nat
  pins : Nat
  deriving Repr, DecidableEq

structure EvictionNode where
  handle : Nat
  timestamp : Nat
  deriving Repr, DecidableEq

/-- A handle that has been destroyed leaves `none` at its place. -/
structure BufferManager where
  currentMemory : Nat
  maximumMemory : Nat
  tempDirectory : Bool
  handles : List (Option BlockHandle)
  blocks : Nat → Option Nat
  queue : List EvictionNode
  temporaryId : Nat

/-- What a call meets: whether reading the block throws, the handles whose blocks cannot be
written, and which node `try_dequeue` takes next. -/
structure BufferEvents where
  readThrows : Bool
  writeThrows : List Nat
  position : List EvictionNode → Nat

inductive BufferOutcome where
  | returned
  | returnedNull
  | threw
  deriving Repr, DecidableEq

namespace BlockHandle

def isTemporary (handle : BlockHandle) : Bool := decide (maximumBlock ≤ handle.blockId)

def canUnload (tempDirectory : Bool) (handle : BlockHandle) : Bool :=
  handle.loaded && decide (handle.readers = 0) &&
    !(handle.isTemporary && !handle.canDestroy && !tempDirectory)

end BlockHandle

namespace BufferManager

variable (manager : BufferManager) (name : Nat)

def lookup : Option BlockHandle :=
  (manager.handles[name]?).join

def setHandle (handle : Option BlockHandle) : BufferManager :=
  { manager with handles := manager.handles.set name handle }

def dequeue (position : List EvictionNode → Nat) (queue : List EvictionNode) :
    Option (EvictionNode × List EvictionNode) :=
  (queue[position queue % queue.length]?).map fun node =>
    (node, queue.eraseIdx (position queue % queue.length))

variable (handle : BlockHandle)

/-- `Unload`: the state is changed before a temporary block is written. -/
def unload (writeThrows : Bool) : BufferManager × Bool :=
  if handle.isTemporary && !handle.canDestroy && writeThrows then
    (manager.setHandle name (some { handle with loaded := false }), true)
  else
    ({ manager.setHandle name (some { handle with loaded := false, buffer := false }) with
      currentMemory := subWord manager.currentMemory handle.memoryUsage }, false)

inductive Eviction where
  | done
  | exhausted
  | threw
  deriving Repr, DecidableEq

def evictLoop (events : BufferEvents) (limit : Nat) : Nat → BufferManager → BufferManager × Eviction
  | 0, manager => (manager, if limit < manager.currentMemory then .exhausted else .done)
  | fuel + 1, manager =>
    if limit < manager.currentMemory then
      match dequeue events.position manager.queue with
      | none => (manager, .exhausted)
      | some (node, queue) =>
        let manager := { manager with queue }
        match manager.lookup node.handle with
        | none => evictLoop events limit fuel manager
        | some handle =>
          if node.timestamp = handle.evictionTimestamp ∧
              handle.canUnload manager.tempDirectory = true then
            match manager.unload node.handle handle (events.writeThrows.contains node.handle) with
            | (manager, true) => (manager, .threw)
            | (manager, false) => evictLoop events limit fuel manager
          else evictLoop events limit fuel manager
    else (manager, .done)

variable (events : BufferEvents)

def evictBlocks (extraMemory limit : Nat) : BufferManager × Eviction :=
  let raised := { manager with currentMemory := addWord manager.currentMemory extraMemory }
  match evictLoop events limit manager.queue.length raised with
  | (manager, .exhausted) =>
    ({ manager with currentMemory := subWord manager.currentMemory extraMemory }, .exhausted)
  | result => result

def registerBlock (blockId : Nat) : BufferManager :=
  match (manager.blocks blockId).bind manager.lookup with
  | some _ => manager
  | none =>
    { manager with
      handles := manager.handles ++ [some {
        blockId, readers := 0, loaded := false, buffer := false, evictionTimestamp := 0,
        canDestroy := false, memoryUsage := blockAllocSize, pins := 0 }]
      blocks := fun other => if other = blockId then some manager.handles.length
        else manager.blocks other }

def registerMemory (allocSize : UInt64) (canDestroy : Bool) : BufferManager × BufferOutcome :=
  match manager.evictBlocks events allocSize.toNat manager.maximumMemory with
  | (manager, .done) =>
    ({ manager with
      temporaryId := manager.temporaryId + 1
      handles := manager.handles ++ [some {
        blockId := manager.temporaryId + 1, readers := 0, loaded := true, buffer := true,
        evictionTimestamp := 0, canDestroy, memoryUsage := allocSize.toNat, pins := 0 }] },
      .returned)
  | (manager, _) => (manager, .threw)

/-- `Load` of a block that is not loaded: the state is changed before the block is read. A
temporary block that may be destroyed is gone. -/
def load (readThrows : Bool) : BufferManager × BufferOutcome :=
  let started := { handle with readers := 1, loaded := true }
  if handle.isTemporary && handle.canDestroy then
    (manager.setHandle name (some started), .returnedNull)
  else if readThrows then
    (manager.setHandle name (some started), .threw)
  else
    (manager.setHandle name (some { started with buffer := true, pins := handle.pins + 1 }), .returned)

def pin (name : Nat) (handle : BlockHandle) : BufferManager × BufferOutcome :=
  if handle.loaded then
    (manager.setHandle name (some { handle with
      readers := handle.readers + 1, pins := handle.pins + 1 }), .returned)
  else
    match manager.evictBlocks events handle.memoryUsage manager.maximumMemory with
    | (manager, .done) => manager.load name handle events.readThrows
    | (manager, _) => (manager, .threw)

def unpin : BufferManager :=
  let left := { handle with readers := handle.readers - 1, pins := handle.pins - 1 }
  if handle.readers - 1 = 0 then
    { manager.setHandle name (some { left with evictionTimestamp := handle.evictionTimestamp + 1 }) with
      queue := manager.queue ++ [⟨name, handle.evictionTimestamp + 1⟩] }
  else manager.setHandle name (some left)

def destroy : BufferManager :=
  let erased := manager.setHandle name none
  { erased with
    currentMemory := if handle.loaded then subWord manager.currentMemory handle.memoryUsage
      else manager.currentMemory
    blocks := fun other => if handle.isTemporary = false ∧ other = handle.blockId then none
      else manager.blocks other }

def setLimit (limit : UInt64) : BufferManager × BufferOutcome :=
  match manager.evictBlocks events 0 limit.toNat with
  | (evicted, .done) =>
    match { evicted with maximumMemory := limit.toNat }.evictBlocks events 0 limit.toNat with
    | (again, .done) => (again, .returned)
    | (again, .exhausted) => ({ again with maximumMemory := evicted.maximumMemory }, .threw)
    | (again, .threw) => (again, .threw)
  | (evicted, _) => (evicted, .threw)

end BufferManager

inductive BufferCall where
  | registerBlock (blockId : Nat)
  | registerMemory (allocSize : UInt64) (canDestroy : Bool) (events : BufferEvents)
  | pin (name : Nat) (events : BufferEvents)
  | unpin (name : Nat)
  | destroy (name : Nat)
  | setLimit (limit : UInt64) (events : BufferEvents)

namespace BufferManager

/-- A call on a handle that exists; only a `BufferHandle` unpins, and it keeps its block alive. -/
def step (manager : BufferManager) : BufferCall → Option (BufferManager × BufferOutcome)
  | .registerBlock blockId => some (manager.registerBlock blockId, .returned)
  | .registerMemory allocSize canDestroy events =>
    some (manager.registerMemory events allocSize canDestroy)
  | .pin name events => (manager.lookup name).map (manager.pin events name)
  | .unpin name =>
    (manager.lookup name).bind fun handle =>
      if handle.pins = 0 then none else some (manager.unpin name handle, .returned)
  | .destroy name =>
    (manager.lookup name).bind fun handle =>
      if handle.pins = 0 then some (manager.destroy name handle, .returned) else none
  | .setLimit limit events => some (manager.setLimit events limit)

def start (limit : UInt64) (tempDirectory : Bool) : BufferManager where
  currentMemory := 0
  maximumMemory := limit.toNat
  tempDirectory
  handles := []
  blocks := fun _ => none
  queue := []
  temporaryId := maximumBlock

end BufferManager

end GuinsooDB
