import GuinsooDB.Version.Departing

/-!
Deleting rows of a morsel. The rows of the call are collected into groups, one for each
visit to a vector, and the groups are marked up to the first one with a conflict.
-/

namespace GuinsooDB

open BlockRange Function VersionedTable List
open List (mem_singleton mem_append mem_cons_self mem_cons_of_mem)

/-! The groups of a call -/

def collectGroups (vector : Nat) (rows : List Nat) : List Nat → List (Nat × List Nat)
  | [] => [(vector, rows)]
  | rowId :: rest =>
    if rowId / standardVectorSize = vector then
      collectGroups vector (rows ++ [rowId % standardVectorSize]) rest
    else
      (vector, rows) ::
        collectGroups (rowId / standardVectorSize) [rowId % standardVectorSize] rest

def groupsOf : List Nat → List (Nat × List Nat)
  | [] => []
  | rowId :: rest =>
    collectGroups (rowId / standardVectorSize) [rowId % standardVectorSize] rest

variable {rowIds : List Nat} {other : Nat} {vector row : Nat}

theorem mem_collectGroups {rows list : List Nat}
    (member : (other, list) ∈ collectGroups vector rows rowIds) (inside : row ∈ list) :
    other = vector ∧ row ∈ rows ∨ ∃ rowId ∈ rowIds,
      rowId / standardVectorSize = other ∧ rowId % standardVectorSize = row := by
  induction rowIds generalizing vector rows with
  | nil =>
    cases mem_singleton.mp member
    exact .inl ⟨rfl, inside⟩
  | cons rowId rest ih =>
    rw [collectGroups] at member
    split at member
    next here =>
      rcases ih member with ⟨same, collected⟩ | ⟨later, listed, place⟩
      · rcases mem_append.mp collected with before | new
        · exact .inl ⟨same, before⟩
        · exact .inr ⟨rowId, mem_cons_self, here.trans same.symm, (mem_singleton.mp new).symm⟩
      · exact .inr ⟨later, mem_cons_of_mem _ listed, place⟩
    · rcases mem_cons.mp member with same | next
      · cases same
        exact .inl ⟨rfl, inside⟩
      · rcases ih next with ⟨same, collected⟩ | ⟨later, listed, place⟩
        · exact .inr ⟨rowId, mem_cons_self, same.symm, (mem_singleton.mp collected).symm⟩
        · exact .inr ⟨later, mem_cons_of_mem _ listed, place⟩

variable {list : List Nat}

theorem mem_groupsOf (member : (vector, list) ∈ groupsOf rowIds) (inside : row ∈ list) :
    ∃ rowId ∈ rowIds, rowId / standardVectorSize = vector ∧ rowId % standardVectorSize = row := by
  cases rowIds with
  | nil => cases member
  | cons rowId rest =>
    rcases mem_collectGroups member inside with ⟨same, collected⟩ | ⟨later, listed, place⟩
    · exact ⟨rowId, mem_cons_self, same.symm, (mem_singleton.mp collected).symm⟩
    · exact ⟨later, mem_cons_of_mem _ listed, place⟩

def inTable (segment : Nat) (groups : List (Nat × List Nat)) : List (Nat × List Nat) :=
  groups.map fun group => (segment * morselVectorCount + group.1, group.2)

theorem inTable_push (segment vector : Nat) (groups : List (Nat × List Nat)) (rows : List Nat) :
    inTable segment (groups ++ [(vector, rows)]) =
      inTable segment groups ++ [(segment * morselVectorCount + vector, rows)] := by
  simp [inTable]

namespace RowVersions

def deleteGroups (id : Nat) :
    RowVersions → List (Nat × List Nat) → List (Nat × List Nat)
  | _, [] => []
  | recorded, group :: rest =>
    if ∀ row ∈ group.2, (rowsOf recorded group.1 row).deletable then
      group :: deleteGroups id (recorded.delete group.1 group.2 id) rest
    else []

def markGroups (id : Nat) (recorded : RowVersions) (groups : List (Nat × List Nat)) :
    RowVersions :=
  groups.foldl (fun recorded group => recorded.delete group.1 group.2 id) recorded

end RowVersions

theorem RowVersions.delete_nil (recorded : RowVersions) (vector id : Nat) :
    recorded.delete vector [] id = recorded := by
  funext row
  simp [RowVersions.delete]

theorem markDeleted_nil (rows : Nat → RowVersion) (id : Nat) : markDeleted rows [] id = rows := by
  funext row
  simp [markDeleted]

/-! What deleting keeps -/

/-- The table and the recorded ids while a call that started from `base` and `before` is
deleting. -/
structure Deleting (base : VersionedTable) (before : RowVersions) (table : VersionedTable)
    (recorded : RowVersions) (groups : List (Nat × List Nat)) : Prop where
  layout : table.Layout
  total : table.totalRows = base.totalRows
  sound : AllSound table recorded
  constants : ∀ vector insertId deleteId,
    table.info vector = some (.constant insertId deleteId) →
    base.info vector = some (.constant insertId deleteId)
  marks : ∀ vector chunk, base.info vector = some (.vector chunk) → chunk.anyDeleted = true →
    ∃ marked, table.info vector = some (.vector marked) ∧ marked.anyDeleted = true
  groups : ∀ group ∈ groups, table.Marked recorded group.1 group.2
  inserted : ∀ row, (recorded row).inserted = (before row).inserted
  uncommitted : ∀ row, transactionIdStart ≤ (before row).inserted → recorded row = before row

namespace Deleting

variable {base table changed : VersionedTable} {before recorded : RowVersions}
  {groups : List (Nat × List Nat)} {vector id : Nat} {rows : List Nat} {chunk : ChunkVectorInfo}

theorem initial (layout : base.Layout) (sound : AllSound base before) : Deleting base before base before [] where
  layout := layout
  total := rfl
  sound := sound
  constants := fun _ _ _ found => found
  marks := fun _ chunk found marked => ⟨chunk, found, marked⟩
  groups := by simp
  inserted := fun _ => rfl
  uncommitted := fun _ _ => rfl

variable (deleting : Deleting base before table recorded groups)

include deleting in
theorem setVector (layout : changed.Layout) (total : changed.totalRows = table.totalRows)
    (infos : changed.info = update table.info vector (some (.vector chunk)))
    (kept : ∀ current, table.info vector = some (.vector current) → current.anyDeleted = true → chunk.anyDeleted = true)
    (used : 0 < table.rowsIn vector)
    (sound : SoundVector (table.rowsIn vector) (markDeleted (rowsOf recorded vector) rows id) chunk)
    (committed : ∀ row ∈ rows, (rowsOf recorded vector row).inserted < transactionIdStart) :
    Deleting base before changed (recorded.delete vector rows id) groups where
  layout := layout
  total := total.trans deleting.total
  sound := by
    have here : Sound (table.rowsIn vector) (markDeleted (rowsOf recorded vector) rows id)
        (some (.vector chunk)) := ⟨used, sound⟩
    exact fun other => Departing.forall_of_delete Sound (fun _ _ _ _ => Sound.congr) total infos
      (fun _ => here) other (deleting.sound other)
  constants := fun other insertId deleteId found =>
    deleting.constants other insertId deleteId (Departing.constant_of_update infos found)
  marks := fun other current found deleted =>
    Departing.vector_of_update infos kept (deleting.marks other current found deleted)
  groups := fun group member => Departing.marked_of_update infos kept total (deleting.groups group member)
  inserted := fun row => (Departing.delete_inserted ..).trans (deleting.inserted row)
  uncommitted := by
    intro row own
    rw [Departing.delete_of_not_mem recorded id, deleting.uncommitted row own]
    intro offset member here
    have below := committed offset member
    unfold rowsOf at below
    rw [here, deleting.inserted] at below
    omega

include deleting in
theorem push (found : table.info vector = some (.vector chunk)) (deleted : chunk.anyDeleted = true)
    (nonempty : rows ≠ []) (inside : ∀ row ∈ rows, row < table.rowsIn vector)
    (committed : ∀ row ∈ rows, (rowsOf recorded vector row).inserted < transactionIdStart) :
    Deleting base before table recorded (groups ++ [(vector, rows)]) :=
  { deleting with
    groups := by
      intro group member
      rcases mem_append.mp member with old | new
      · exact deleting.groups group old
      · rw [mem_singleton.mp new]
        exact ⟨nonempty, ⟨chunk, found, deleted⟩, inside, committed⟩ }

variable {entries : List VersionEntry}

include deleting in
theorem held (held : Held (fun _ => False) base before other entries) (above : transactionIdStart ≤ other) :
    Held (fun _ => False) table recorded other entries where
  appends := by
    intro start count appended
    obtain ⟨positive, inside, rows⟩ := held.appends start count appended
    refine ⟨positive, deleting.total ▸ inside, fun row low high => ⟨?_, by simp⟩⟩
    rw [deleting.uncommitted row (by rw [(rows row low high).1]; exact above)]
    exact (rows row low high).1
  covers := fun start count appended vector insertId deleteId found =>
    held.covers start count appended vector insertId deleteId (deleting.constants vector insertId deleteId found)
  deletes := by
    intro vector rows deleted
    obtain ⟨marked, _⟩ := held.deletes vector rows deleted
    obtain ⟨chunk, found, flag⟩ := marked.chunk
    refine ⟨⟨marked.nonempty, deleting.marks vector chunk found flag, ?_, ?_⟩, by simp⟩
    · rw [rowsIn_congr deleting.total]
      exact marked.inside
    · intro row inside
      unfold rowsOf
      rw [deleting.inserted]
      exact marked.committed row inside
  owned := by
    intro row inside _ own
    rw [deleting.inserted] at own
    exact held.owned row (deleting.total ▸ inside) (by simp) own

include deleting in
theorem held_push {id : Nat} (held : Held (fun _ => False) table recorded id entries) :
    Held (fun _ => False) table recorded id (entries ++ groups.map fun group => .delete group.1 group.2) := by
  have appended (start count : Nat) (inside : VersionEntry.append start count ∈
        entries ++ groups.map fun group => .delete group.1 group.2) :
      .append start count ∈ entries := by
    simpa using inside
  refine { appends := fun start count inside => held.appends start count (appended _ _ inside)
           covers := fun start count inside => held.covers start count (appended _ _ inside)
           deletes := ?_
           owned := ?_ }
  · intro vector rows deleted
    rcases mem_append.mp deleted with old | new
    · exact held.deletes vector rows old
    · obtain ⟨group, member, same⟩ := mem_map.mp new
      simp only [VersionEntry.delete.injEq] at same
      rw [← same.1, ← same.2]
      exact ⟨deleting.groups group member, by simp⟩
  · intro row inside stays own
    obtain ⟨start, count, mine, bounds⟩ := held.owned row inside stays own
    exact ⟨start, count, mem_append_left _ mine, bounds⟩

end Deleting

def VersionedTable.Targets (table : VersionedTable) (segment : Nat) (rowIds : List Nat) : Prop :=
  ∀ rowId ∈ rowIds, rowId < morselSize ∧ segment * morselSize + rowId < table.totalRows ∧
    ∀ insertId deleteId,
      table.info (segment * morselVectorCount + rowId / standardVectorSize) =
        some (.constant insertId deleteId) → deleteId = notDeletedId

namespace VersionDeleteState

variable {base : VersionedTable} {before recorded : RowVersions} {segment vector : Nat}
  {rows : List Nat} {state : VersionDeleteState}

def table (base : VersionedTable) (segment : Nat) (state : VersionDeleteState) : VersionedTable :=
  base.setMorsel segment state.morsel

theorem table_info (state : VersionDeleteState) (small : vector < morselVectorCount) :
    (state.table base segment).info (segment * morselVectorCount + vector) = state.morsel.info vector := by
  obtain ⟨place, rest⟩ := vector_place segment small
  rw [table, setMorsel_info, if_pos place, rest]

theorem setInfo_table (base : VersionedTable) (segment : Nat) (state : VersionDeleteState)
    (small : vector < morselVectorCount) (chunk : ChunkVectorInfo) :
    ((state.setInfo vector chunk).table base segment).info =
      update (state.table base segment).info (segment * morselVectorCount + vector) (some (.vector chunk)) := by
  obtain ⟨place, rest⟩ := vector_place segment small
  have updated := (state.table base segment).setMorsel_update
    (segment * morselVectorCount + vector) (some (.vector chunk))
  rw [place, rest] at updated
  rw [← updated]
  simp [table, setInfo, setMorsel]

theorem setInfo_layout (layout : (state.table base segment).Layout)
    (existing : segment < base.segmentCount) (vector : Nat) (chunk : ChunkVectorInfo) :
    ((state.setInfo vector chunk).table base segment).Layout := by
  have start := layout.starts segment
  have same : (state.setInfo vector chunk).table base segment =
      (state.table base segment).setMorsel segment (state.setInfo vector chunk).morsel := by
    simp [table, setMorsel]
  rw [same]
  refine { toSegmented := layout.toSegmented.setMorsel existing ?_, ends := layout.ends }
  rw [← start]
  simp [table, setMorsel, setInfo]

structure Collecting (base : VersionedTable) (before : RowVersions) (segment : Nat)
    (state : VersionDeleteState) (recorded : RowVersions) (vector : Nat) (rows : List Nat) :
    Prop where
  deleting : Deleting base before (state.table base segment) recorded
    (inTable segment state.pushed)
  small : vector < morselVectorCount
  current : state.currentChunk = some vector
  converted : ∃ chunk, state.morsel.info vector = some (.vector chunk)
  collected : state.rows = rows
  nonempty : rows ≠ []
  inside : ∀ row ∈ rows, row < base.rowsIn (segment * morselVectorCount + vector)

theorem Collecting.flush (existing : segment < base.segmentCount)
    (collecting : Collecting base before segment state recorded vector rows) (id : Nat) :
    if ∀ row ∈ rows, (rowsOf recorded (segment * morselVectorCount + vector) row).deletable then
      (state.flush id).2 = none ∧ (state.flush id).1.rows = [] ∧
        (state.flush id).1.pushed = state.pushed ++ [(vector, rows)] ∧
        Deleting base before ((state.flush id).1.table base segment)
          (recorded.delete (segment * morselVectorCount + vector) rows id)
          (inTable segment (state.flush id).1.pushed)
    else
      (∃ message, (state.flush id).2 = some message) ∧ (state.flush id).1.pushed = state.pushed ∧
        Deleting base before ((state.flush id).1.table base segment) recorded
          (inTable segment (state.flush id).1.pushed) := by
  obtain ⟨deleting, small, current, ⟨chunk, converted⟩, collected, nonempty, inside⟩ := collecting
  have info := deleting.sound (segment * morselVectorCount + vector)
  rw [state.table_info small, converted] at info
  obtain ⟨used, sound⟩ := info
  obtain ⟨flag, result⟩ := sound.delete inside id
  have infos := setInfo_table base segment state small (chunk.delete id rows).1
  have layout := setInfo_layout deleting.layout existing vector (chunk.delete id rows).1
  rw [flush_eq current converted collected nonempty id]
  split
  next deletable =>
    rw [if_pos deletable] at result
    have committed : ∀ row ∈ rows, (rowsOf recorded (segment * morselVectorCount + vector)
        row).inserted < transactionIdStart :=
      fun row member => (RowVersion.deletable_iff.mp (deletable row member)).2
    have marked := deleting.setVector layout rfl infos (fun _ _ _ => flag) used result.2 committed
    have found : ((state.setInfo vector (chunk.delete id rows).1).table base segment).info
        (segment * morselVectorCount + vector) = some (.vector (chunk.delete id rows).1) := by
      rw [infos, update_self]
    rw [result.1]
    refine ⟨rfl, rfl, rfl, ?_⟩
    have pushed := marked.push found flag nonempty inside (by
      intro row member
      have below := committed row member
      unfold rowsOf at below ⊢
      rwa [Departing.delete_inserted])
    rw [← inTable_push] at pushed
    exact pushed
  next stuck =>
    rw [if_neg stuck] at result
    obtain ⟨⟨message, thrown⟩, unmarked⟩ := result
    rw [thrown]
    refine ⟨⟨message, rfl⟩, rfl, ?_⟩
    rw [← markDeleted_nil (rowsOf recorded _) id] at unmarked
    have flagged := deleting.setVector layout rfl infos (fun _ _ _ => flag) used unmarked (by simp)
    rwa [RowVersions.delete_nil] at flagged

variable {rowId : Nat}

theorem rowId_split (small : rowId < morselSize) : rowId / standardVectorSize < morselVectorCount ∧
      rowId - rowId / standardVectorSize * standardVectorSize = rowId % standardVectorSize := by
  simp only [morselSize, standardVectorSize, morselVectorCount] at small ⊢
  omega

theorem rowId_inside (present : segment * morselSize + rowId < base.totalRows) : rowId % standardVectorSize <
      base.rowsIn (segment * morselVectorCount + rowId / standardVectorSize) := by
  simp only [rowsIn, upper, morselSize, standardVectorSize, morselVectorCount] at present ⊢
  omega

theorem Collecting.enter (existing : segment < base.segmentCount)
    (deleting : Deleting base before (state.table base segment) recorded
      (inTable segment state.pushed)) (flushed : state.rows = [])
    (target : base.Targets segment [rowId]) :
    Collecting base before segment
      { state.setInfo (rowId / standardVectorSize)
          (ChunkInfo.toVector (state.morsel.info (rowId / standardVectorSize))) with
        currentChunk := some (rowId / standardVectorSize)
        rows := state.rows ++ [rowId - rowId / standardVectorSize * standardVectorSize] }
      recorded (rowId / standardVectorSize) [rowId % standardVectorSize] := by
  obtain ⟨bounded, present, undeleted⟩ := target rowId mem_cons_self
  obtain ⟨small, offset⟩ := rowId_split bounded
  generalize vectorEq : rowId / standardVectorSize = vector at *
  generalize chunkEq : ChunkInfo.toVector (state.morsel.info vector) = chunk
  have inside := vectorEq ▸ rowId_inside present
  have info := deleting.sound (segment * morselVectorCount + vector)
  rw [state.table_info small] at info
  have converted : SoundVector _ _ chunk := chunkEq ▸ info.toVector (by
    intro insertId deleteId found
    refine undeleted insertId deleteId (deleting.constants _ _ _ ?_)
    rw [state.table_info small, found])
  have kept : ∀ current, (state.table base segment).info (segment * morselVectorCount + vector) =
        some (.vector current) → current.anyDeleted = true → chunk.anyDeleted = true := by
    intro current found deleted
    rw [state.table_info small] at found
    rw [← chunkEq, found]
    exact deleted
  rw [← markDeleted_nil (rowsOf recorded _) 0] at converted
  have next := deleting.setVector (setInfo_layout deleting.layout existing vector chunk) rfl
    (setInfo_table base segment state small chunk) kept (Nat.zero_lt_of_lt inside) converted
    (by simp)
  rw [RowVersions.delete_nil] at next
  refine { deleting := next, small, current := rfl, converted := ?_, collected := ?_
           nonempty := by simp, inside := by simpa using inside }
  · exact ⟨chunk, by simp [setInfo]⟩
  · simp [flushed, offset]

theorem Collecting.deleteLoop (existing : segment < base.segmentCount) {rest : List Nat}
    (targets : base.Targets segment rest)
    (collecting : Collecting base before segment state recorded vector rows) (id : Nat) :
    inTable segment (deleteLoop id state rest).1.pushed = inTable segment state.pushed ++
          recorded.deleteGroups id (inTable segment (collectGroups vector rows rest)) ∧
      Deleting base before ((deleteLoop id state rest).1.table base segment) (recorded.markGroups id
          (recorded.deleteGroups id (inTable segment (collectGroups vector rows rest))))
        (inTable segment (deleteLoop id state rest).1.pushed) := by
  induction rest generalizing state recorded vector rows with
  | nil =>
    have flushed := collecting.flush existing id
    simp only [VersionDeleteState.deleteLoop, collectGroups, inTable, map_cons, map_nil, RowVersions.deleteGroups]
    split at flushed
    next deletable =>
      obtain ⟨_, _, pushed, deleting⟩ := flushed
      rw [if_pos deletable]
      exact ⟨by rw [pushed]; simp, deleting⟩
    next stuck =>
      obtain ⟨_, pushed, deleting⟩ := flushed
      rw [if_neg stuck]
      exact ⟨by rw [pushed]; simp, deleting⟩
  | cons rowId rest ih =>
    have target : base.Targets segment [rowId] := by
      intro other member
      rw [mem_singleton.mp member]
      exact targets rowId mem_cons_self
    have restTargets : base.Targets segment rest := fun other member => targets other (mem_cons_of_mem _ member)
    obtain ⟨bounded, present, _⟩ := targets rowId mem_cons_self
    rw [VersionDeleteState.deleteLoop, collectGroups]
    by_cases same : rowId / standardVectorSize = vector
    · subst vector
      rw [if_pos rfl, VersionDeleteState.delete, if_neg (not_not_intro collecting.current)]
      refine ih restTargets { collecting with
        collected := ?_, nonempty := by simp, inside := ?_ }
      · simp only [collecting.collected, (rowId_split bounded).2]
      intro row member
      rcases mem_append.mp member with old | new
      · exact collecting.inside row old
      · rw [mem_singleton.mp new]
        exact rowId_inside present
    · have elsewhere : state.currentChunk ≠ some (rowId / standardVectorSize) := by
        rw [collecting.current]
        exact fun equal => same (Option.some.inj equal).symm
      rw [if_neg same, VersionDeleteState.delete, if_pos elsewhere]
      have flushed := collecting.flush existing id
      generalize state.flush id = outcome at flushed ⊢
      obtain ⟨next, error⟩ := outcome
      simp only [inTable, map_cons, RowVersions.deleteGroups]
      split at flushed
      next deletable =>
        obtain ⟨clear, emptied, pushed, deleting⟩ := flushed
        dsimp only at clear emptied pushed deleting
        subst error
        rw [if_pos deletable]
        obtain ⟨restPushed, restDeleting⟩ := ih restTargets (Collecting.enter existing deleting emptied target)
        refine ⟨?_, restDeleting⟩
        exact restPushed.trans (by simp [setInfo, inTable, pushed])
      next stuck =>
        obtain ⟨⟨message, thrown⟩, pushed, deleting⟩ := flushed
        dsimp only at thrown pushed deleting
        subst error
        rw [if_neg stuck]
        exact ⟨by simp [pushed], deleting⟩

end VersionDeleteState

theorem VersionedTable.delete_spec {table : VersionedTable} {recorded : RowVersions} {segment : Nat}
    (layout : table.Layout) (sound : AllSound table recorded)
    (targets : table.Targets segment rowIds) (id : Nat) :
    inTable segment ((table.versions segment).delete id rowIds).1.pushed =
        recorded.deleteGroups id (inTable segment (groupsOf rowIds)) ∧
      Deleting table recorded (table.setMorsel segment ((table.versions segment).delete id rowIds).1.morsel)
        (recorded.markGroups id (recorded.deleteGroups id (inTable segment (groupsOf rowIds))))
        (recorded.deleteGroups id (inTable segment (groupsOf rowIds))) := by
  have unchanged : table.setMorsel segment (table.versions segment) = table := by
    simp [setMorsel]
  cases rowIds with
  | nil =>
    refine ⟨rfl, ?_⟩
    change Deleting table recorded (table.setMorsel segment (table.versions segment)) recorded []
    rw [unchanged]
    exact Deleting.initial layout sound
  | cons rowId rest =>
    obtain ⟨_, present, _⟩ := targets rowId mem_cons_self
    have existing : segment < table.segmentCount := by
      have ends := layout.ends.2
      exact Nat.lt_of_mul_lt_mul_right (lt_of_le_of_lt (Nat.le_add_right _ _) (lt_of_lt_of_le present ends))
    have start : Deleting table recorded (VersionDeleteState.table table segment
        { morsel := table.versions segment, currentChunk := none, rows := [], pushed := [] })
        recorded (inTable segment []) := by
      rw [VersionDeleteState.table, unchanged]
      exact Deleting.initial layout sound
    have first := VersionDeleteState.Collecting.enter existing start rfl
      (fun other member => targets other (mem_singleton.mp member ▸ mem_cons_self))
    obtain ⟨pushed, deleting⟩ := first.deleteLoop existing
      (fun other member => targets other (mem_cons_of_mem _ member)) id
    rw [pushed] at deleting
    exact ⟨pushed, deleting⟩

theorem VersionState.delete_eq {state : VersionState} {id segment : Nat} {groups : List (Nat × List Nat)}
    (pushed : inTable segment ((state.table.versions segment).delete id rowIds).1.pushed = groups) :
    state.delete id segment rowIds = { state with
      table := state.table.setMorsel segment
        ((state.table.versions segment).delete id rowIds).1.morsel
      recorded := state.recorded.markGroups id groups
      undo := update state.undo id
        (state.undo id ++ groups.map fun group => .delete group.1 group.2) } := by
  rw [← pushed]
  rfl

end GuinsooDB
