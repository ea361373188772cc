import GuinsooDB.Join.HashTable

/-!
`PhysicalHashJoin`: the hash table is built from all chunks of the right side. Each task probes
it with the chunks of its own part of the left side; the table and the position of the final
scan are shared.
-/

namespace GuinsooDB

structure HashJoinGlobal where
  hashTable : JoinHashTable
  position : Nat

/-- One task: the chunks that its child has still to return, the chunk that is probed, and the
rows that are kept back because there are few of them. -/
structure HashJoinTask (Left : Type) where
  child : List (List (ProbeRow Left))
  childChunk : List (ProbeRow Left)
  scanStructure : Option ScanStructure
  cachedChunk : List (JoinedRow Left)

namespace HashJoin

variable {Left : Type} (plan : HashJoin)

def buildAll (chunks : List (List BuildRow)) : Except String HashJoinGlobal := do
  let table ← chunks.foldlM plan.build createTable
  return { hashTable := finalize table, position := 0 }

def startTask (child : List (List (ProbeRow Left))) : HashJoinTask Left where
  child
  childChunk := []
  scanStructure := none
  cachedChunk := []

abbrev Returned (Left : Type) := List (JoinedRow Left) × HashJoinGlobal × HashJoinTask Left

def probeChunks (global : HashJoinGlobal) (task : HashJoinTask Left) :
    List (List (ProbeRow Left)) → Except String (Returned Left)
  | [] => .ok ([], global, { task with child := [], childChunk := [] })
  | chunk :: rest =>
    if global.hashTable.entries.isEmpty then
      .ok (plan.constructEmptyJoinResult global.hashTable.hasNull chunk, global,
        { task with child := rest, childChunk := chunk })
    else do
      let (rows, scan, table) ← (plan.probe global.hashTable chunk).next plan global.hashTable chunk
      let global := { global with hashTable := table }
      let task := { task with child := rest, childChunk := chunk, scanStructure := some scan }
      if rows.isEmpty then probeChunks global task rest else return (rows, global, task)

def probeHashTable (global : HashJoinGlobal) (task : HashJoinTask Left) :
    Except String (Returned Left) :=
  match task.scanStructure with
  | none => plan.probeChunks global task task.child
  | some scan =>
    if task.childChunk.isEmpty then
      plan.probeChunks global task task.child
    else do
      let (rows, scan, table) ← scan.next plan global.hashTable task.childChunk
      let global := { global with hashTable := table }
      if rows.isEmpty then
        let task := { task with scanStructure := none }
        plan.probeChunks global task task.child
      else
        return (rows, global, { task with scanStructure := some scan })

def fillCache : Nat → HashJoinGlobal → HashJoinTask Left → Except String (Returned Left)
  | 0, global, task => .ok ([], global, task)
  | fuel + 1, global, task => do
      let (rows, global, task) ← plan.probeHashTable global task
      if rows.isEmpty then
        if task.cachedChunk.isEmpty then
          if plan.joinType.isRightOuter then
            let (unmatched, position) := plan.scanFullOuter global.hashTable global.position
            return (unmatched, { global with position }, task)
          else
            return ([], global, task)
        else
          return (task.cachedChunk, global, { task with cachedChunk := [] })
      else if rows.length < 64 then
        let cached := task.cachedChunk ++ rows
        if standardVectorSize - 64 ≤ cached.length then
          return (cached, global, { task with cachedChunk := [] })
        else
          fillCache fuel global { task with cachedChunk := cached }
      else
        return (rows, global, task)

def getChunk (global : HashJoinGlobal) (task : HashJoinTask Left) : Except String (Returned Left) :=
  if global.hashTable.entries.isEmpty ∧ (plan.joinType = .inner ∨ plan.joinType = .semi) then
    .ok ([], global, task)
  else
    plan.fillCache standardVectorSize global task

def drain : Nat → HashJoinGlobal → HashJoinTask Left → Except String (List (JoinedRow Left))
  | 0, _, _ => .error "out of fuel"
  | fuel + 1, global, task => do
      let (rows, global, task) ← plan.getChunk global task
      if rows.isEmpty then
        return []
      else
        let later ← drain fuel global task
        return rows ++ later

end HashJoin

end GuinsooDB
