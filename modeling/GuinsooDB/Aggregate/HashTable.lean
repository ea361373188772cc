import GuinsooDB.Execution.Value
import GuinsooDB.Library.LinearProbing
import GuinsooDB.Transaction.Manager

/-!
`GroupedAggregateHashTable`: the groups lie in pages in the order in which they were created,
and a ring of salted entries points at them. A whole vector of rows is looked up at once.
-/

namespace GuinsooDB

open LinearProbing Function

structure AggregateFunction (Row State : Type) where
  initial : State
  update : State → Row → State
  combine : State → State → State

inductive HtEntryType where
  | width32
  | width64
  deriving Repr, DecidableEq

/-- What the tables of one aggregation share. `uninitialised` is the content of a vector that
was allocated and not written. -/
structure Aggregation (Row State : Type) where
  groupTypes : List PhysicalType
  hash : PhysicalType → Datum → Nat
  tuplesPerBlock : Nat
  function : AggregateFunction Row State
  uninitialised : Nat → Nat

structure GroupEntry (State : Type) where
  hash : Nat
  values : List Datum
  state : State

structure HtEntry where
  salt : Nat
  group : Nat
  deriving Repr, DecidableEq

structure AggregateHashTable (State : Type) where
  entryType : HtEntryType
  capacity : Nat
  slots : Nat → Option HtEntry
  groups : List (GroupEntry State)

def HtEntryType.hashPrefixShift : HtEntryType → Nat
  | .width32 => 56
  | .width64 => 48

def HtEntryType.maxPages : HtEntryType → Nat
  | .width32 => 255
  | .width64 => 4294967295

namespace AggregateHashTable

variable {Row State : Type}

variable (table : AggregateHashTable State)

def salt (hash : Nat) : Nat :=
  hash >>> table.entryType.hashPrefixShift

def offset (hash : Nat) : Nat := hash &&& (table.capacity - 1)

variable (context : Aggregation Row State)

def maxCapacity (table : AggregateHashTable State) : Nat :=
  table.entryType.maxPages * min 65535 context.tuplesPerBlock

def firstUnused (slots : Nat → Option HtEntry) (capacity : Nat) : Nat → Nat → Nat
  | 0, offset => offset
  | fuel + 1, offset =>
    match slots offset with
    | none => offset
    | some _ => firstUnused slots capacity fuel (advance capacity offset)

def reinsert (table : AggregateHashTable State) (group : Nat) :
    List (GroupEntry State) → AggregateHashTable State
  | [] => table
  | entry :: rest =>
    let slot := firstUnused table.slots table.capacity table.capacity (table.offset entry.hash)
    let inserted := { table with
      slots := update table.slots slot (some { salt := table.salt entry.hash, group }) }
    inserted.reinsert (group + 1) rest

def resize (size : Nat) : Except String (AggregateHashTable State) :=
  if size ≤ table.capacity then
    .error "Cannot downsize a hash table!"
  else
    let cleared := { table with capacity := max size standardVectorSize, slots := fun _ => none }
    .ok (cleared.reinsert 0 table.groups)

def create (entryType : HtEntryType) : AggregateHashTable State where
  entryType
  capacity := standardVectorSize * 2
  slots := fun _ => none
  groups := []

/-! Finding or creating the groups of a vector -/

structure Round (State : Type) where
  table : AggregateHashTable State
  addresses : Nat → Nat
  newGroups : List Nat
  emptyVector : List Nat
  groupCompareVector : List Nat
  noMatchVector : List Nat

def Round.visit (initial : State) (hashes offsets : Nat → Nat) (round : Round State)
    (index : Nat) : Round State :=
  match round.table.slots (offsets index) with
  | none =>
    let created := round.table.groups.length
    { round with
      table := { round.table with
        slots := update round.table.slots (offsets index)
          (some { salt := round.table.salt (hashes index), group := created })
        groups := round.table.groups ++ [{ hash := hashes index, values := [], state := initial }] }
      addresses := update round.addresses index created
      newGroups := round.newGroups ++ [index]
      emptyVector := round.emptyVector ++ [index] }
  | some entry =>
    if entry.salt = round.table.salt (hashes index) then
      { round with
        addresses := update round.addresses index entry.group
        groupCompareVector := round.groupCompareVector ++ [index] }
    else
      { round with noMatchVector := round.noMatchVector ++ [index] }

def scatterGroups (types : List PhysicalType) (rows : Nat → Key) (addresses : Nat → Nat)
    (groups : List (GroupEntry State)) (emptyVector : List Nat) : List (GroupEntry State) :=
  emptyVector.foldl (fun groups index => groups.modify (addresses index) fun group =>
    { group with values := storeKey types (rows index) }) groups

def compareGroups (rows : Nat → Key) (values : Nat → List Datum) :
    List PhysicalType → Nat → List Nat → List Nat → List Nat
  | [], _, _, noMatch => noMatch
  | type :: rest, column, selected, noMatch =>
    let same := fun index =>
      compareStored type ((rows index).getD column none) ((values index).getD column default)
    compareGroups rows values rest (column + 1) (selected.filter same)
      (noMatch ++ selected.filter fun index => !same index)

variable (groups : List (GroupEntry State))

def groupValues (group : Nat) : List Datum :=
  ((groups[group]?).map GroupEntry.values).getD []

def probeRound (rows : Nat → Key) (hashes offsets : Nat → Nat) (table : AggregateHashTable State)
    (addresses : Nat → Nat) (newGroups selected : List Nat) : Round State :=
  let visited := selected.foldl (Round.visit context.function.initial hashes offsets)
    { table, addresses, newGroups, emptyVector := [], groupCompareVector := [], noMatchVector := [] }
  let groups := scatterGroups context.groupTypes rows visited.addresses visited.table.groups
    visited.emptyVector
  { visited with
    table := { visited.table with groups }
    noMatchVector := compareGroups rows (fun index => groupValues groups (visited.addresses index))
      context.groupTypes 0 visited.groupCompareVector visited.noMatchVector }

def probeLoop (context : Aggregation Row State) (rows : Nat → Key) (hashes : Nat → Nat) :
    Nat → (Nat → Nat) → AggregateHashTable State → (Nat → Nat) → List Nat → List Nat →
      AggregateHashTable State × (Nat → Nat) × List Nat
  | 0, _, table, addresses, newGroups, _ => (table, addresses, newGroups)
  | fuel + 1, offsets, table, addresses, newGroups, selected =>
    if selected.isEmpty then
      (table, addresses, newGroups)
    else
      let round := probeRound context rows hashes offsets table addresses newGroups selected
      probeLoop context rows hashes fuel
        (fun index => if index ∈ round.noMatchVector
          then advance table.capacity (offsets index) else offsets index)
        round.table round.addresses round.newGroups round.noMatchVector

def ensureRoom (table : AggregateHashTable State) (count : Nat) :
    Except String (AggregateHashTable State) :=
  if table.groups.length + count > table.maxCapacity context then
    .error "Hash table capacity reached"
  else if table.capacity - table.groups.length ≤ count ∨
      2 * table.capacity < 3 * table.groups.length then
    table.resize (table.capacity * 2)
  else
    .ok table

def findOrCreateGroups (table : AggregateHashTable State) (rows : List Key) (hashes : Nat → Nat) :
    Except String (AggregateHashTable State × (Nat → Nat) × List Nat) := do
  let roomy ← table.ensureRoom context rows.length
  return probeLoop context (fun index => rows.getD index []) hashes (roomy.capacity + 1)
    (fun index => roomy.offset (hashes index)) roomy (fun _ => 0) [] (List.range rows.length)

/-! The operations of the table -/

def setState (group : Nat) (change : State → State) : List (GroupEntry State) :=
  groups.modify group fun entry => { entry with state := change entry.state }

def addChunk (table : AggregateHashTable State) (chunk : List (Key × Row)) (hashes : Nat → Nat) :
    Except String (AggregateHashTable State) :=
  if chunk.isEmpty then
    .ok table
  else do
    let (found, addresses, _) ← table.findOrCreateGroups context (chunk.map Prod.fst) hashes
    return { found with
      groups := chunk.zipIdx.foldl (fun groups entry => setState groups (addresses entry.2)
        fun state => context.function.update state entry.1.2) found.groups }

def fetchAggregates (table : AggregateHashTable State) (rows : List Key) (hashes : Nat → Nat) :
    Except String (AggregateHashTable State × List (Option State)) :=
  if rows.isEmpty then
    .ok (table, [])
  else do
    let (found, addresses, _) ← table.findOrCreateGroups context rows hashes
    return (found, (List.range rows.length).map fun index =>
      (found.groups[addresses index]?).map GroupEntry.state)

def flushMove (table : AggregateHashTable State) (source : List (GroupEntry State)) :
    Except String (AggregateHashTable State) := do
  let (found, addresses, _) ← table.findOrCreateGroups context
    (source.map fun entry => gatherKey context.groupTypes entry.values)
    (fun index => ((source[index]?).map GroupEntry.hash).getD 0)
  return { found with
    groups := source.zipIdx.foldl (fun groups entry => setState groups (addresses entry.2)
      fun state => context.function.combine state entry.1.state) found.groups }

def collect (collected : AggregateHashTable State × List (GroupEntry State))
    (entry : GroupEntry State) :
    Except String (AggregateHashTable State × List (GroupEntry State)) :=
  let pending := collected.2 ++ [entry]
  if pending.length = standardVectorSize then do
    let moved ← collected.1.flushMove context pending
    return (moved, [])
  else
    .ok (collected.1, pending)

def combine (table other : AggregateHashTable State) : Except String (AggregateHashTable State) :=
  if other.groups.isEmpty then
    .ok table
  else do
    let (moved, pending) ← other.groups.foldlM (collect context) (table, [])
    moved.flushMove context pending

def partition (table : AggregateHashTable State) (partitionOf : Nat → Nat)
    (targets : Nat → AggregateHashTable State) (count : Nat) :
    Except String (Nat → AggregateHashTable State) := do
  let collected ← table.groups.foldlM (fun collected entry => do
    let next ← collect context (collected (partitionOf entry.hash)) entry
    return update collected (partitionOf entry.hash) next)
    (fun index => (targets index, []))
  (List.range count).foldlM (fun tables index => do
    let moved ← (tables index).flushMove context (collected index).2
    return update tables index moved) (fun index => (collected index).1)

def scan (table : AggregateHashTable State) (position : Nat) : List (Key × State) :=
  ((table.groups.drop position).take standardVectorSize).map fun entry =>
    (gatherKey context.groupTypes entry.values, entry.state)

end AggregateHashTable

end GuinsooDB
