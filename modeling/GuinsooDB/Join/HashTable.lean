import GuinsooDB.Aggregate.HashTable

/-!
`JoinHashTable`: rows of the build side are serialised one after the other, and chains of rows
with the same bucket are probed with a whole vector of keys at once.
-/

namespace GuinsooDB

open List

inductive JoinType where
  | inner
  | left
  | right
  | outer
  | semi
  | anti
  | single
  | mark
  deriving Repr, DecidableEq

def JoinType.isRightOuter : JoinType → Bool
  | .right | .outer => true
  | _ => false

inductive ComparisonType where
  | equal
  | notEqual
  | greaterThan
  | greaterThanOrEqualTo
  | lessThan
  | lessThanOrEqualTo
  deriving Repr, DecidableEq

def Datum.less : Datum → Datum → Bool
  | .number left, .number right => left < right
  | .bytes left, .bytes right =>
    let size := min left.length right.length
    if left.take size = right.take size then left.length < right.length
    else left.take size < right.take size
  | .number _, .bytes _ => true
  | .bytes _, .number _ => false

def ComparisonType.holds (comparison : ComparisonType) (left right : Datum) : Bool :=
  match comparison with
  | .equal => left == right
  | .notEqual => left != right
  | .greaterThan => right.less left
  | .greaterThanOrEqualTo => !left.less right
  | .lessThan => left.less right
  | .lessThanOrEqualTo => !right.less left

structure JoinCondition where
  type : PhysicalType
  comparison : ComparisonType
  nullValuesAreEqual : Bool
  equality : nullValuesAreEqual = true → comparison = .equal

/-- A MARK join is planned for `IN`, for a correlated `EXISTS` and for a correlated `ANY`, which
has one condition after those of the correlated columns and keeps their counts. -/
inductive MarkPlan (conditions : List JoinCondition) (correlated : Nat) : Prop
  | contained (condition : JoinCondition) (only : conditions = [condition])
      (strict : condition.nullValuesAreEqual = false) (plain : correlated = 0)
  | exists' (all : ∀ condition ∈ conditions, condition.nullValuesAreEqual = true)
      (plain : correlated = 0)
  | any (condition : JoinCondition) (columns : List JoinCondition)
      (split : conditions = columns ++ [condition])
      (all : ∀ column ∈ columns, column.nullValuesAreEqual = true)
      (strict : condition.nullValuesAreEqual = false) (counted : correlated = columns.length)

/-- A planned hash join: conditions with an equality come first, and only their columns are
hashed. -/
structure HashJoin where
  conditions : List JoinCondition
  equalities : Nat
  buildTypes : List PhysicalType
  joinType : JoinType
  correlated : Nat
  hash : PhysicalType → Datum → Nat
  tuplesPerBlock : Nat
  uninitialised : Nat → Nat
  positive : 0 < equalities
  bounded : equalities ≤ conditions.length
  leading : ∀ index condition, conditions[index]? = some condition →
    (condition.comparison = .equal ↔ index < equalities)
  planned : joinType = .mark → MarkPlan conditions correlated

structure BuildRow where
  keys : Key
  payload : Key
  deriving Repr, DecidableEq

structure ProbeRow (Left : Type) where
  keys : Key
  row : Left
  deriving Repr, DecidableEq

/-- A row of the result with the rows it was made of. The columns are those that the join adds
to the left side. -/
structure JoinedRow (Left : Type) where
  left : Option (ProbeRow Left)
  right : Option BuildRow
  columns : List Cell
  deriving Repr, DecidableEq

structure JoinEntry where
  keys : List Datum
  payload : List Datum
  hash : Nat
  source : BuildRow

/-- The chain of a bucket begins with the entry that was inserted last. -/
structure JoinHashTable where
  entries : List JoinEntry
  found : Nat → Bool
  hasNull : Bool
  correlatedCounts : AggregateHashTable (Nat × Nat)
  bitmask : Nat
  hashMap : Nat → List Nat

namespace HashJoin

variable (plan : HashJoin)

def conditionTypes : List PhysicalType := plan.conditions.map JoinCondition.type

def counts : Aggregation Bool (Nat × Nat) where
  groupTypes := plan.conditionTypes.take plan.correlated
  hash := plan.hash
  tuplesPerBlock := plan.tuplesPerBlock
  function := {
    initial := (0, 0)
    update := fun counts valid => (counts.1 + 1, if valid then counts.2 + 1 else counts.2)
    combine := fun first second => (first.1 + second.1, first.2 + second.2) }
  uninitialised := plan.uninitialised

def hashKeys (key : Key) : Nat :=
  hashKey plan.hash (plan.conditionTypes.take plan.equalities) key

def filterNulls (keys : Nat → Key) : List JoinCondition → Nat → List Nat → List Nat
  | [], _, selected => selected
  | condition :: rest, column, selected =>
    filterNulls keys rest (column + 1) (if condition.nullValuesAreEqual then selected
        else selected.filter fun index => ((keys index).getD column none).isSome)

def prepareKeys (keys : List Key) (buildSide : Bool) : List Nat :=
  if buildSide && plan.joinType.isRightOuter then
    range keys.length
  else
    filterNulls (fun index => keys.getD index []) plan.conditions 0 (range keys.length)

def serialize (row : BuildRow) : JoinEntry where
  keys := storeKey plan.conditionTypes row.keys
  payload := storeKey plan.buildTypes row.payload
  hash := plan.hashKeys row.keys
  source := row

def createTable : JoinHashTable where
  entries := []
  found := fun _ => false
  hasNull := false
  correlatedCounts := AggregateHashTable.create .width64
  bitmask := 0
  hashMap := fun _ => []

def countCorrelated (counts : AggregateHashTable (Nat × Nat)) (rows : List BuildRow) :
    Except String (AggregateHashTable (Nat × Nat)) :=
  if plan.joinType = .mark ∧ plan.correlated ≠ 0 then
    let groups := rows.map fun row =>
      (row.keys.take plan.correlated, (row.keys.getD plan.correlated none).isSome)
    counts.addChunk plan.counts groups fun index =>
      hashKey plan.hash plan.counts.groupTypes ((groups.map Prod.fst).getD index [])
  else
    .ok counts

variable (table : JoinHashTable)

def build (rows : List BuildRow) : Except String JoinHashTable :=
  if rows.isEmpty then
    .ok table
  else do
    let correlatedCounts ← plan.countCorrelated table.correlatedCounts rows
    let selected := plan.prepareKeys (rows.map BuildRow.keys) true
    return { table with
      correlatedCounts
      hasNull := table.hasNull || selected.length < rows.length
      entries := table.entries ++
        (selected.filterMap fun index => rows[index]?).map plan.serialize }

def insertHashes (entries : List (JoinEntry × Nat)) : JoinHashTable :=
  entries.foldl (fun table entry =>
    let bucket := entry.1.hash &&& table.bitmask
    { table with hashMap := Function.update table.hashMap bucket (entry.2 :: table.hashMap bucket) })
    table

def blockAllocSize : Nat := 262144

def finalize : JoinHashTable :=
  let capacity := Nat.nextPowerOfTwo (max (table.entries.length * 2) (blockAllocSize / 8 + 1))
  insertHashes { table with bitmask := capacity - 1, hashMap := fun _ => [] } table.entries.zipIdx

end HashJoin

structure ScanStructure where
  pointers : Nat → List Nat
  selected : List Nat
  foundMatch : Nat → Bool
  finished : Bool

def matchCell (condition : JoinCondition) (cell : Cell) (value : Datum) : Bool :=
  match cell with
  | none => isNullValue condition.type value
  | some left => condition.comparison.holds left value

namespace ScanStructure

variable {Left : Type} (plan : HashJoin) (table : JoinHashTable) (probe : List (ProbeRow Left))

variable (scan : ScanStructure) (index : Nat)

def probeKeys : Key := ((probe[index]?).map ProbeRow.keys).getD []

def pointedKeys : List Datum :=
  ((scan.pointers index).head?.bind fun entry =>
    (table.entries[entry]?).map JoinEntry.keys).getD []

def resolveColumns (scan : ScanStructure) :
    List JoinCondition → Nat → List Nat → List Nat → List Nat × List Nat
  | [], _, selected, noMatch => (selected, noMatch)
  | condition :: rest, column, selected, noMatch =>
    let matched := fun index => matchCell condition ((probeKeys probe index).getD column none)
      ((scan.pointedKeys table index).getD column default)
    let remaining := selected.filter matched
    let missed := noMatch ++ selected.filter fun index => !matched index
    if remaining.isEmpty then (remaining, missed)
    else resolveColumns scan rest (column + 1) remaining missed

def resolvePredicates : List Nat × List Nat :=
  scan.resolveColumns table probe plan.conditions 0 scan.selected []

def advancePointers (selected : List Nat) : ScanStructure :=
  { scan with
    pointers := fun index => if index ∈ selected then (scan.pointers index).tail
      else scan.pointers index
    selected := selected.filter fun index => !(scan.pointers index).tail.isEmpty }

def markFound (selected : List Nat) : ScanStructure :=
  { scan with foundMatch := fun index => decide (index ∈ selected) || scan.foundMatch index }

def scanInnerJoin : Nat → ScanStructure → List Nat × ScanStructure
  | 0, scan => ([], scan)
  | fuel + 1, scan =>
    let result := (scan.resolvePredicates plan table probe).1
    if result.isEmpty then
      let advanced := scan.advancePointers scan.selected
      if advanced.selected.isEmpty then ([], advanced) else scanInnerJoin fuel advanced
    else
      (result, if plan.joinType = .inner then scan else scan.markFound result)

def joinedRow : Option (JoinedRow Left) :=
  (scan.pointers index).head?.bind fun entry => (table.entries[entry]?).map fun stored =>
    { left := probe[index]?, right := some stored.source,
      columns := gatherKey plan.buildTypes stored.payload }

def nullColumns : List Cell := plan.buildTypes.map fun _ => none

def nextInnerJoin : List (JoinedRow Left) × ScanStructure × JoinHashTable :=
  if scan.selected.isEmpty then
    ([], scan, table)
  else
    let (result, matched) := scanInnerJoin plan table probe (table.entries.length + 1) scan
    if result.isEmpty then
      ([], matched, table)
    else
      let rows := result.filterMap (matched.joinedRow plan table probe)
      let marked := if plan.joinType.isRightOuter then
          { table with found := fun entry => table.found entry ||
              result.any fun index => (matched.pointers index).head? == some entry }
        else table
      (rows, matched.advancePointers matched.selected, marked)

def nextLeftJoin : List (JoinedRow Left) × ScanStructure × JoinHashTable :=
  let (rows, next, marked) := scan.nextInnerJoin plan table probe
  if rows.isEmpty then
    let unmatched := (range probe.length).filter fun index => !next.foundMatch index
    (unmatched.map fun index =>
        { left := probe[index]?, right := none, columns := nullColumns plan },
      { next with finished := true }, marked)
  else
    (rows, next, marked)

def scanKeyMatches : Nat → ScanStructure → ScanStructure
  | 0, scan => scan
  | fuel + 1, scan =>
    if scan.selected.isEmpty then
      scan
    else
      let (matched, missed) := scan.resolvePredicates plan table probe
      scanKeyMatches fuel ((scan.markFound matched).advancePointers missed)

def scanAllKeyMatches : ScanStructure :=
  scanKeyMatches plan table probe (table.entries.length + 1) scan

def nextSemiOrAntiJoin (wanted : Bool) (scan : ScanStructure) :
    List (JoinedRow Left) × ScanStructure :=
  let scanned := scan.scanAllKeyMatches plan table probe
  (((range probe.length).filter fun index => scanned.foundMatch index == wanted).map fun index =>
      { left := probe[index]?, right := none, columns := [] },
    { scanned with finished := true })

def booleanCell (value : Bool) : Cell := some (.number (if value then 1 else 0))

def markValidity (index : Nat) : List JoinCondition → Nat → Bool → Bool
  | [], _, valid => valid
  | condition :: rest, column, valid =>
    markValidity index rest (column + 1) (if condition.nullValuesAreEqual then valid
        else if (range probe.length).all fun other =>
            ((probeKeys probe other).getD column none).isSome then valid
        else ((probeKeys probe index).getD column none).isSome)

def constructMarkJoinResult : Cell :=
  let valid := markValidity probe index plan.conditions 0 true
  let found := scan.foundMatch index
  if valid && (found || !table.hasNull) then booleanCell found else none

def correlatedMark (countStar count : Nat) (index : Nat) : Cell :=
  let found := scan.foundMatch index
  let lastValid := ((probeKeys probe index).getLast?.getD none).isSome
  if countStar = 0 || (lastValid && (found || countStar ≤ count)) then booleanCell found else none

def nextMarkJoin : Except String (List (JoinedRow Left) × ScanStructure × JoinHashTable) :=
  let scanned := scan.scanAllKeyMatches plan table probe
  let marked := fun mark : Nat → Cell => (range probe.length).map fun index =>
    ({ left := probe[index]?, right := none, columns := [mark index] } : JoinedRow Left)
  if plan.correlated = 0 then
    .ok (marked (scanned.constructMarkJoinResult plan table probe), { scanned with finished := true },
      table)
  else do
    let groups := probe.map fun row => row.keys.take plan.correlated
    let (correlatedCounts, counts) ← table.correlatedCounts.fetchAggregates plan.counts groups
      fun index => hashKey plan.hash plan.counts.groupTypes (groups.getD index [])
    let fetched := fun index => ((counts[index]?).getD none).getD (0, 0)
    return (marked fun index =>
        scanned.correlatedMark probe (fetched index).1 (fetched index).2 index,
      { scanned with finished := true }, { table with correlatedCounts })

def scanSingle : Nat → ScanStructure → List Nat → ScanStructure × List Nat
  | 0, scan, result => (scan, result)
  | fuel + 1, scan, result =>
    if scan.selected.isEmpty then
      (scan, result)
    else
      let (matched, missed) := scan.resolvePredicates plan table probe
      scanSingle fuel ((scan.markFound matched).advancePointers missed) (result ++ matched)

def nextSingleJoin : List (JoinedRow Left) × ScanStructure :=
  let (scanned, result) := scanSingle plan table probe (table.entries.length + 1) scan []
  ((range probe.length).map fun index =>
      (if index ∈ result then scanned.joinedRow plan table probe index else none).getD
        { left := probe[index]?, right := none, columns := nullColumns plan },
    { scanned with finished := true })

def next (scan : ScanStructure) :
    Except String (List (JoinedRow Left) × ScanStructure × JoinHashTable) :=
  if scan.finished then
    .ok ([], scan, table)
  else
    match plan.joinType with
    | .inner | .right => .ok (scan.nextInnerJoin plan table probe)
    | .semi =>
      let (rows, next) := scan.nextSemiOrAntiJoin plan table probe true
      .ok (rows, next, table)
    | .mark => scan.nextMarkJoin plan table probe
    | .anti =>
      let (rows, next) := scan.nextSemiOrAntiJoin plan table probe false
      .ok (rows, next, table)
    | .outer | .left => .ok (scan.nextLeftJoin plan table probe)
    | .single =>
      let (rows, next) := scan.nextSingleJoin plan table probe
      .ok (rows, next, table)

end ScanStructure

namespace HashJoin

variable {Left : Type} (plan : HashJoin)

def probe (table : JoinHashTable) (rows : List (ProbeRow Left)) : ScanStructure :=
  let selected := plan.prepareKeys (rows.map ProbeRow.keys) false
  let pointers := fun index => if index ∈ selected then
      table.hashMap (plan.hashKeys (ScanStructure.probeKeys rows index) &&& table.bitmask)
    else []
  { pointers
    selected := selected.filter fun index => !(pointers index).isEmpty
    foundMatch := fun _ => false
    finished := false }

def scanUnmatched (found : Nat → Bool) (count : Nat) : Nat → Nat → List Nat → List Nat × Nat
  | 0, position, entries => (entries, position)
  | fuel + 1, position, entries =>
    if position < count then
      if found position then
        scanUnmatched found count fuel (position + 1) entries
      else if entries.length + 1 = standardVectorSize then
        (entries ++ [position], position + 1)
      else
        scanUnmatched found count fuel (position + 1) (entries ++ [position])
    else
      (entries, position)

def scanFullOuter (table : JoinHashTable) (position : Nat) : List (JoinedRow Left) × Nat :=
  let (unmatched, next) := scanUnmatched table.found table.entries.length
    (table.entries.length - position) position []
  (unmatched.filterMap fun entry => (table.entries[entry]?).map fun stored =>
      { left := none, right := some stored.source,
        columns := gatherKey plan.buildTypes stored.payload },
    next)

def constructEmptyJoinResult (hasNull : Bool) (rows : List (ProbeRow Left)) :
    List (JoinedRow Left) :=
  match plan.joinType with
  | .anti => rows.map fun row => { left := some row, right := none, columns := [] }
  | .mark => rows.map fun row =>
    { left := some row, right := none,
      columns := [if hasNull then none else ScanStructure.booleanCell false] }
  | .left | .outer | .single => rows.map fun row =>
    { left := some row, right := none, columns := ScanStructure.nullColumns plan }
  | _ => []

end HashJoin

end GuinsooDB
