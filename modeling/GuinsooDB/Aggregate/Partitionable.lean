import GuinsooDB.Aggregate.HashTable

/-!
`PartitionableHashTable` and `PhysicalHashAggregate`: threads fill tables of their own, which
are split by a part of the hash when there are many groups, and combined at the end.
-/

namespace GuinsooDB

open List Function

/-- A vector of rows with their group columns. When all group columns are constant vectors,
so is the vector of hashes. -/
structure GroupChunk (types : List PhysicalType) (Row : Type) where
  rows : List (Key × Row)
  constant : Bool
  small : rows.length ≤ standardVectorSize
  columns : ∀ row ∈ rows, row.1.length = types.length
  same : constant = true → ∀ row ∈ rows, ∀ other ∈ rows, row.1 = other.1

/-! Radix partitions -/

structure RadixPartitionInfo where
  radixBits : Nat

namespace RadixPartitionInfo

def radixShift : Nat := 40

def doublings (upperBound : Nat) : Nat → Nat → Nat
  | 0, _ => 0
  | fuel + 1, partitions =>
    if partitions ≤ upperBound / 2 then doublings upperBound fuel (partitions * 2) + 1 else 0

def ofUpperBound (upperBound : Nat) : RadixPartitionInfo where
  radixBits := doublings upperBound 8 1

variable (info : RadixPartitionInfo)

def nPartitions : Nat := 2 ^ info.radixBits

def radixMask : Nat := (2 ^ info.radixBits - 1) <<< radixShift

def partitionOf (hash : Nat) : Nat :=
  (hash &&& info.radixMask) >>> radixShift

end RadixPartitionInfo

structure PartitionableHashTable (State : Type) where
  isPartitioned : Bool
  unpartitionedHts : List (AggregateHashTable State)
  radixPartitionedHts : Nat → List (AggregateHashTable State)
  hashes : Nat → Nat

namespace PartitionableHashTable

variable {Row State : Type}

variable (context : Aggregation Row State)

def create : PartitionableHashTable State where
  isPartitioned := false
  unpartitionedHts := []
  radixPartitionedHts := fun _ => []
  hashes := context.uninitialised

variable (list : List (AggregateHashTable State))

def openTable (count : Nat) : List (AggregateHashTable State) :=
  match list.getLast? with
  | none => list ++ [AggregateHashTable.create .width32]
  | some last =>
    if last.groups.length + count > last.maxCapacity context then
      list ++ [AggregateHashTable.create .width32]
    else
      list

def listAddChunk (chunk : List (Key × Row)) (hashes : Nat → Nat) :
    Except String (List (AggregateHashTable State)) :=
  let opened := openTable context list chunk.length
  match opened.getLast? with
  | none => .ok opened
  | some last => do
      let added ← last.addChunk context chunk hashes
      return opened.dropLast ++ [added]

def pushTable (first : AggregateHashTable State) (list : List (AggregateHashTable State)) :
    Except String (List (AggregateHashTable State)) := do
  let rest ← (list ++ [AggregateHashTable.create .width32]).tail.mapM
    fun later => AggregateHashTable.flushMove context later []
  return first :: rest

/-- `Partition`. The list of target tables is not cleared between two tables that are split, so
all groups go to the first table of their partition. -/
def partition (context : Aggregation Row State) (info : RadixPartitionInfo)
    (table : PartitionableHashTable State) : Except String (PartitionableHashTable State) := do
  let radixPartitionedHts ← table.unpartitionedHts.foldlM (fun radix unpartitionedHt => do
      let firsts ← unpartitionedHt.partition context info.partitionOf
        (fun partition => (radix partition).headD (AggregateHashTable.create .width32))
        info.nPartitions
      (range info.nPartitions).foldlM (fun radix partition => do
        let list ← pushTable context (firsts partition) (radix partition)
        return update radix partition list) radix)
    table.radixPartitionedHts
  return { table with isPartitioned := true, unpartitionedHts := [], radixPartitionedHts }

/-- The vector of hashes after `Hash`. A constant one has its first entry written only. -/
def hashChunk (buffer : Nat → Nat) (chunk : GroupChunk context.groupTypes Row) :
    Nat → Nat := fun index =>
  match chunk.rows[index]? with
  | none => buffer index
  | some row =>
    if chunk.constant ∧ index ≠ 0 then buffer index
    else hashKey context.hash context.groupTypes row.1

def normalified {types : List PhysicalType} (chunk : GroupChunk types Row) (hashes : Nat → Nat)
    (index : Nat) : Nat :=
  if chunk.constant then hashes 0 else hashes index

/-- `Normalify` moves a constant vector to a new buffer. -/
def normalifiedBuffer (chunk : GroupChunk context.groupTypes Row) (hashes : Nat → Nat) (index : Nat) :
    Nat :=
  if chunk.constant ∧ ¬chunk.rows.isEmpty then
    if index < chunk.rows.length then hashes 0 else context.uninitialised index
  else
    hashes index

variable (info : RadixPartitionInfo)

def selected {types : List PhysicalType} (chunk : GroupChunk types Row) (hashes : Nat → Nat)
    (partition : Nat) : List Nat :=
  (range chunk.rows.length).filter fun index => info.partitionOf (hashes index) = partition

def addSelected (chunk : GroupChunk context.groupTypes Row) (hashes : Nat → Nat) (partition : Nat)
    (list : List (AggregateHashTable State)) : Except String (List (AggregateHashTable State)) :=
  let rows := selected info chunk hashes partition
  listAddChunk context list (rows.filterMap fun index => chunk.rows[index]?)
    (fun index => normalified chunk hashes (rows.getD index 0))

def addChunk (table : PartitionableHashTable State) (chunk : GroupChunk context.groupTypes Row)
    (doPartition : Bool) : Except String (PartitionableHashTable State) := do
  let hashes := hashChunk context table.hashes chunk
  let table ← (if !table.isPartitioned && doPartition then table.partition context info
    else .ok table)
  if !table.isPartitioned then
    let unpartitionedHts ← listAddChunk context table.unpartitionedHts chunk.rows
      (normalified chunk hashes)
    return { table with
      unpartitionedHts
      hashes := normalifiedBuffer context chunk hashes }
  else
    let radixPartitionedHts ← (range info.nPartitions).foldlM (fun radix partition => do
        let list ← addSelected context info chunk hashes partition (radix partition)
        return update radix partition list)
      table.radixPartitionedHts
    return { table with radixPartitionedHts, hashes }

end PartitionableHashTable

/-! The operator -/

/-- The input of one thread: its chunks with the decision to partition, and whether its table
is partitioned at the end. -/
structure LocalInput (types : List PhysicalType) (Row : Type) where
  chunks : List (GroupChunk types Row × Bool)
  partitionAtEnd : Bool

namespace PhysicalHashAggregate

variable {Row State : Type}

variable (context : Aggregation Row State) (info : RadixPartitionInfo)

def sinkLocal (input : LocalInput context.groupTypes Row) :
    Except String (PartitionableHashTable State) := do
  let table ← input.chunks.foldlM
    (fun table chunk => PartitionableHashTable.addChunk context info table chunk.1 chunk.2)
    (PartitionableHashTable.create context)
  if !table.isPartitioned && input.partitionAtEnd then table.partition context info else .ok table

def finalize (intermediateHts : List (PartitionableHashTable State)) :
    Except String (List (AggregateHashTable State)) :=
  if intermediateHts.any PartitionableHashTable.isPartitioned then do
    let partitioned ← intermediateHts.mapM fun table =>
      if table.isPartitioned then .ok table else table.partition context info
    (range info.nPartitions).mapM fun radix =>
      partitioned.foldlM (fun final table =>
        (table.radixPartitionedHts radix).foldlM (AggregateHashTable.combine context) final)
        (AggregateHashTable.create .width64)
  else do
    let final ← intermediateHts.foldlM (fun final table =>
      table.unpartitionedHts.foldlM (AggregateHashTable.combine context) final)
      (AggregateHashTable.create .width64)
    return [final]

def scanFrom (context : Aggregation Row State) (table : AggregateHashTable State) :
    Nat → Nat → List (Key × State)
  | 0, _ => []
  | fuel + 1, position =>
    let found := table.scan context position
    if found.isEmpty then [] else found ++ scanFrom context table fuel (position + found.length)

def scanTables (tables : List (AggregateHashTable State)) : List (Key × State) :=
  tables.flatMap fun table => scanFrom context table (table.groups.length + 1) 0

def execute (inputs : List (LocalInput context.groupTypes Row)) :
    Except String (List (Key × State)) := do
  let intermediateHts ← inputs.mapM (sinkLocal context info)
  let finalizedHts ← finalize context info intermediateHts
  return scanTables context finalizedHts

def executeSingle (chunks : List (GroupChunk context.groupTypes Row)) :
    Except String (List (Key × State)) := do
  let finalizedHt ← chunks.foldlM (fun table chunk => table.addChunk context chunk.rows fun index =>
    hashKey context.hash context.groupTypes ((chunk.rows.map Prod.fst).getD index []))
    (AggregateHashTable.create .width64)
  return scanTables context [finalizedHt]

end PhysicalHashAggregate

inductive HashAggregateInput (types : List PhysicalType) (Row : Type) where
  | single (chunks : List (GroupChunk types Row))
  | parallel (info : RadixPartitionInfo) (inputs : List (LocalInput types Row))

def HashAggregateInput.execute {Row State : Type} (context : Aggregation Row State) :
    HashAggregateInput context.groupTypes Row → Except String (List (Key × State))
  | .single chunks => PhysicalHashAggregate.executeSingle context chunks
  | .parallel info inputs => PhysicalHashAggregate.execute context info inputs

end GuinsooDB
