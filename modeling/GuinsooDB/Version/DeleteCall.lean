import GuinsooDB.Version.DeleteIds

/-!
When a call of `DataTable::Delete` deletes what it was given: every row once, with one undo
entry, or nothing at all and an exception.
-/

namespace GuinsooDB

open List Option VersionDeleteState VersionedTable Function

namespace VersionedTable

def deletedId (table : VersionedTable) (row : Nat) : Nat :=
  (table.versions (row / morselSize)).deletedId (row % morselSize)

def Deletable (table : VersionedTable) (row : Nat) : Prop :=
  (table.versions (row / morselSize)).Deletable (row % morselSize)

def Clean (table : VersionedTable) (row : Nat) : Prop :=
  ChunkInfo.Clean ((table.versions (row / morselSize)).infoOf (row % morselSize))

theorem setMorsel_deletedId (table : VersionedTable) (segment row : Nat) (morsel : MorselInfo) :
    (table.setMorsel segment morsel).deletedId row =
      if row / morselSize = segment then morsel.deletedId (row % morselSize)
      else table.deletedId row := by
  rw [deletedId, deletedId, setMorsel]
  dsimp only
  rw [update_apply]
  split <;> rfl

end VersionedTable

namespace DeletableTable

def isDeleted (table : DeletableTable) (id : Nat) : Bool :=
  if maxRowId ≤ id then table.storage.isDeleted id
  else table.versions.deletedId id != notDeletedId

structure SameMarks (before after : DeletableTable) : Prop where
  versions : ∀ row, after.versions.deletedId row = before.versions.deletedId row
  storage : after.storage.deletedEntries = before.storage.deletedEntries

end DeletableTable

/-- The call has deleted exactly the given rows, none of which was deleted before. -/
structure DeleteResult.Exact (before : DeletableTable) (transactionId : Nat) (ids : List Nat)
    (result : DeleteResult) : Prop where
  fresh : ∀ id ∈ ids, before.isDeleted id = false
  versions : ∀ row < maxRowId, result.table.versions.deletedId row =
    if row ∈ ids then transactionId else before.versions.deletedId row
  storage : ∀ id, maxRowId ≤ id →
    result.table.storage.isDeleted id = (before.storage.isDeleted id || decide (id ∈ ids))
  pushed : (DeleteInfo.rowNumbers result.pushed).Perm (ids.dedup.filter (· < maxRowId))
  counted : DeleteInfo.cleanupCount result.pushed + result.table.storage.deletedRows =
    before.storage.deletedRows + ids.dedup.length

namespace DeletableTable

/-- The call throws and marks no row, or it deletes exactly the given rows. -/
def DeletesExactly (table : DeletableTable) (transactionId : Nat) (ids : List Nat) : Prop :=
  ∃ result, table.delete transactionId ids = some result ∧
    (result.error ≠ none ∧ table.SameMarks result.table ∨
      result.error = none ∧ result.Exact table transactionId ids)

def firstRun : List Nat → List Nat
  | [] => []
  | firstId :: rest =>
    (firstId :: rest).takeWhile fun id =>
      id / standardVectorSize = firstId / standardVectorSize

/-- The ids are distinct rows of one chunk of the local storage that are not deleted yet; or
distinct rows of one morsel that can all be deleted, unless a row of the first vector cannot. -/
def Accepts (table : DeletableTable) : List Nat → Prop
  | [] => True
  | firstId :: rest =>
    if maxRowId ≤ firstId then
      (∀ id ∈ firstId :: rest, maxRowId ≤ id ∧
        (id - maxRowId) / standardVectorSize = (firstId - maxRowId) / standardVectorSize ∧
        table.storage.isDeleted id = false) ∧ (firstId :: rest).Nodup
    else if firstId / morselSize < table.versions.segmentCount then
      table.versions.Clean firstId ∧
        ((∃ id ∈ firstRun (firstId :: rest), ¬table.versions.Deletable id) ∨
          (∀ id ∈ firstId :: rest, id / morselSize = firstId / morselSize ∧
            table.versions.Deletable id) ∧ (firstId :: rest).Nodup)
    else True

/-- The row ids of the table are below those of local storages, and a vector that is deleted as
a whole was deleted before the table was loaded. -/
structure Loaded (table : DeletableTable) : Prop where
  below : table.versions.segmentCount * morselSize ≤ maxRowId
  constants : ∀ row insertId deleteId,
    (table.versions.versions (row / morselSize)).infoOf (row % morselSize) =
      some (.constant insertId deleteId) → deleteId < transactionIdStart ∨ deleteId = notDeletedId

end DeletableTable

/-! The local storage -/

namespace LocalDeletes

variable {ids : List Nat} {baseIndex : Nat} {deleted : Nat → Bool}

theorem markLoop_of_inside (inside : ∀ id ∈ ids, baseIndex ≤ id ∧ id < baseIndex + standardVectorSize) :
    markLoop baseIndex ids deleted = some fun position => deleted position || decide (baseIndex + position ∈ ids) := by
  induction ids generalizing deleted with
  | nil => simp [markLoop]
  | cons id rest ih =>
    have first := inside id mem_cons_self
    rw [markLoop, if_pos first, ih fun other member => inside other (mem_cons_of_mem _ member)]
    congr 1
    funext position
    by_cases here : position = id - baseIndex
    · subst here
      rw [update_self, Nat.add_sub_cancel' first.1]
      simp
    · rw [update_of_ne here]
      have other : baseIndex + position ≠ id := by omega
      simp [other]

theorem inside_of_markLoop {marked : Nat → Bool} (marks : markLoop baseIndex ids deleted = some marked) :
    ∀ id ∈ ids, baseIndex ≤ id ∧ id < baseIndex + standardVectorSize := by
  induction ids generalizing deleted with
  | nil => simp
  | cons id rest ih =>
    rw [markLoop] at marks
    split at marks
    · next first =>
        intro other member
        rcases mem_cons.mp member with rfl | later
        · exact first
        · exact ih marks other later
    · exact nomatch marks

variable {firstId id : Nat}

theorem chunk_iff (isLocal : maxRowId ≤ firstId) :
    let baseIndex := maxRowId + (firstId - maxRowId) / standardVectorSize * standardVectorSize
    baseIndex ≤ id ∧ id < baseIndex + standardVectorSize ↔ maxRowId ≤ id ∧
        (id - maxRowId) / standardVectorSize = (firstId - maxRowId) / standardVectorSize := by
  intro baseIndex
  simp only [baseIndex, standardVectorSize]
  omega

variable {storage : LocalDeletes}

theorem delete_eq (isLocal : maxRowId ≤ firstId) : (∃ after, storage.delete firstId ids = some after) ↔
      ∀ id ∈ ids, maxRowId ≤ id ∧ (id - maxRowId) / standardVectorSize = (firstId - maxRowId) / standardVectorSize := by
  constructor
  · rintro ⟨after, deleted⟩ id member
    rw [delete, map_eq_some_iff] at deleted
    obtain ⟨marked, marks, -⟩ := deleted
    exact (chunk_iff isLocal).mp (inside_of_markLoop marks id member)
  · intro inside
    rw [delete, markLoop_of_inside fun id member => (chunk_iff isLocal).mpr (inside id member)]
    exact ⟨_, rfl⟩

variable {after : LocalDeletes}

theorem delete_isDeleted (isLocal : maxRowId ≤ firstId)
    (deleted : storage.delete firstId ids = some after) (idLocal : maxRowId ≤ id) :
    after.isDeleted id = (storage.isDeleted id || decide (id ∈ ids)) := by
  have inside := (delete_eq isLocal).mp ⟨after, deleted⟩
  rw [delete, markLoop_of_inside fun id member => (chunk_iff isLocal).mpr (inside id member)] at deleted
  cases deleted
  rw [isDeleted, isDeleted]
  dsimp only
  rw [update_apply]
  by_cases here : (id - maxRowId) / standardVectorSize = (firstId - maxRowId) / standardVectorSize
  · have position : maxRowId + (firstId - maxRowId) / standardVectorSize * standardVectorSize +
        (id - maxRowId) % standardVectorSize = id := by
      rw [← here]
      simp only [standardVectorSize]
      omega
    rw [if_pos here, here, position]
  · rw [if_neg here]
    have other : id ∉ ids := fun member => here (inside id member).2
    simp [other]

theorem delete_deletedRows (deleted : storage.delete firstId ids = some after) :
    after.deletedRows = storage.deletedRows + ids.length := by
  rw [delete, map_eq_some_iff] at deleted
  obtain ⟨marked, -, rfl⟩ := deleted
  rfl

end LocalDeletes

namespace DeletableTable

variable {table : DeletableTable} {transactionId firstId : Nat} {rest : List Nat}

variable {ids : List Nat}

theorem filter_table_eq_nil (isLocal : ∀ id ∈ ids, maxRowId ≤ id) : ids.dedup.filter (· < maxRowId) = [] := by
  rw [filter_eq_nil_iff]
  intro id member
  simpa using isLocal id (mem_dedup.mp member)

theorem deletesExactly_local (isLocal : maxRowId ≤ firstId) :
    table.DeletesExactly transactionId (firstId :: rest) ↔ table.Accepts (firstId :: rest) := by
  rw [Accepts, if_pos isLocal, DeletesExactly, delete]
  rw [if_pos isLocal]
  constructor
  · rintro ⟨result, deletes, outcome⟩
    rw [map_eq_some_iff] at deletes
    obtain ⟨storage, deleted, rfl⟩ := deletes
    rcases outcome with ⟨thrown, -⟩ | ⟨-, exact⟩
    · exact absurd rfl thrown
    have inside := (LocalDeletes.delete_eq isLocal).mp ⟨storage, deleted⟩
    refine ⟨?_, dedup_eq_self.mp ((dedup_sublist _).eq_of_length (Eq.symm ?_))⟩
    · intro id member
      have fresh := exact.fresh id member
      rw [isDeleted, if_pos (inside id member).1] at fresh
      exact ⟨(inside id member).1, (inside id member).2, fresh⟩
    · have counted := exact.counted
      have rows := LocalDeletes.delete_deletedRows deleted
      change 0 + storage.deletedRows = _ at counted
      omega
  · rintro ⟨inside, distinct⟩
    obtain ⟨storage, deleted⟩ := (LocalDeletes.delete_eq isLocal).mpr
      fun id member => ⟨(inside id member).1, (inside id member).2.1⟩
    refine ⟨_, by rw [deleted]; rfl, .inr ⟨rfl, ?_, ?_, ?_, ?_, ?_⟩⟩
    · intro id member
      rw [isDeleted, if_pos (inside id member).1]
      exact (inside id member).2.2
    · intro row below
      rw [if_neg fun member => Nat.not_le_of_lt below (inside row member).1]
    · exact fun id idLocal => LocalDeletes.delete_isDeleted isLocal deleted idLocal
    · rw [filter_table_eq_nil fun id member => (inside id member).1]
      exact List.Perm.refl []
    · change 0 + storage.deletedRows = _
      rw [distinct.dedup, LocalDeletes.delete_deletedRows deleted, Nat.zero_add]

/-! The rows of the table -/

def entry (table : DeletableTable) (firstId : Nat) : VersionDeleteState :=
  enter
    { morsel := table.versions.versions (firstId / morselSize), currentChunk := none, rows := [],
      pushed := [] } (firstId - firstId / morselSize * morselSize)

def resultOf (table : DeletableTable) (segment : Nat) (state : VersionDeleteState)
    (error : Option String) : DeleteResult where
  table := { table with versions := table.versions.setMorsel segment state.morsel }
  pushed := state.pushed.map fun (vectorIdx, rows) =>
    { vectorStart := segment * morselSize + vectorIdx * standardVectorSize, rows }
  error := error

theorem rowNumbers_resultOf (table : DeletableTable) (segment : Nat) (state : VersionDeleteState)
    (error : Option String) :
    DeleteInfo.rowNumbers (table.resultOf segment state error).pushed =
      state.pushedRows.map (segment * morselSize + ·) := by
  rw [resultOf, DeleteInfo.rowNumbers, pushedRows, flatMap_map, map_flatMap]
  refine flatMap_congr fun group _ => ?_
  rw [List.map_map]
  refine map_congr_left fun row _ => ?_
  change _ + _ + row = _ + (_ + row)
  rw [Nat.add_assoc]

variable {segment id : Nat}

theorem inside_iff : segment * morselSize ≤ id ∧ id < segment * morselSize + morselSize ↔
      id / morselSize = segment := by
  simp only [morselSize, morselVectorCount, standardVectorSize]
  omega

theorem sub_start (id : Nat) : id - id / morselSize * morselSize = id % morselSize := by
  rw [Nat.mod_eq_sub_mul_div, Nat.mul_comm]

variable (notLocal : ¬maxRowId ≤ firstId) (present : firstId / morselSize < table.versions.segmentCount)

include notLocal present in
theorem delete_table :
    table.delete transactionId (firstId :: rest) =
      ((table.entry firstId).deleteIds transactionId (firstId / morselSize * morselSize) rest).map
        fun (state, error) => table.resultOf (firstId / morselSize) state error := by
  rw [delete]
  dsimp only
  rw [if_neg notLocal, if_pos present, (deleteIds_initial _ _ _ (inside_iff.mpr rfl)).1]
  rfl

theorem entry_entered (table : DeletableTable) (firstId : Nat) :
    (table.entry firstId).Entered (firstId % morselSize / standardVectorSize) [firstId % morselSize] := by
  rw [← sub_start]
  exact enter_entered rfl

theorem entry_progress (table : DeletableTable) (transactionId firstId : Nat) :
    (table.entry firstId).Progress (table.entry firstId).morsel transactionId :=
  (deleteIds_initial _ transactionId [] (inside_iff.mpr rfl)).2.2

theorem firstRun_cons (firstId : Nat) (rest : List Nat) : firstRun (firstId :: rest) =
      firstId :: runOf (firstId / morselSize * morselSize) (firstId % morselSize / standardVectorSize) rest := by
  rw [firstRun, takeWhile_cons_of_pos (by simp), runOf]
  congr 2
  funext id
  rw [decide_eq_decide]
  simp only [morselSize, morselVectorCount, standardVectorSize]
  omega

theorem entry_insertedId (table : DeletableTable) (firstId row : Nat) : (table.entry firstId).morsel.insertedId row =
      (table.versions.versions (firstId / morselSize)).insertedId row :=
  enter_insertedId ..

variable (clean : table.versions.Clean firstId)

include clean in
theorem entry_deletedId (row : Nat) :
    (table.entry firstId).morsel.deletedId row = (table.versions.versions (firstId / morselSize)).deletedId row := by
  refine enter_deletedId fun here => ?_
  rw [MorselInfo.infoOf, here, sub_start]
  exact clean

include clean in
theorem entry_deletable_iff (row : Nat) :
    (table.entry firstId).morsel.Deletable row ↔ (table.versions.versions (firstId / morselSize)).Deletable row := by
  rw [MorselInfo.Deletable, MorselInfo.Deletable, entry_deletedId clean, entry_insertedId]

theorem entry_deletedId_of_not_clean (whole : ¬table.versions.Clean firstId) :
    (table.entry firstId).morsel.deletedId (firstId % morselSize) = notDeletedId := by
  rw [entry, MorselInfo.deletedId, enter_infoOf, sub_start, if_pos rfl]
  exact ChunkInfo.deleted_toVector_of_not_clean whole _

theorem entry_clean (table : DeletableTable) (firstId : Nat) :
    ChunkInfo.Clean ((table.entry firstId).morsel.infoOf (firstId % morselSize)) := by
  rw [entry, enter_infoOf, sub_start, if_pos rfl]
  exact fun _ _ found => nomatch found

theorem resultOf_deletedId (table : DeletableTable) {row : Nat} (here : row / morselSize = segment)
    (state : VersionDeleteState) (error : Option String) :
    (table.resultOf segment state error).table.versions.deletedId row = state.morsel.deletedId (row % morselSize) := by
  rw [resultOf]
  rw [setMorsel_deletedId, if_pos here]

theorem deletable_iff (here : id / morselSize = segment) : table.versions.Deletable id ↔
      (table.versions.versions segment).Deletable (id - segment * morselSize) := by
  rw [VersionedTable.Deletable, ← here, sub_start]

include notLocal present in
theorem clean_of_deletesExactly (loaded : table.Loaded) (live : transactionIdStart ≤ transactionId)
    (exactly : table.DeletesExactly transactionId (firstId :: rest)) :
    table.versions.Clean firstId := by
  by_contra whole
  obtain ⟨insertId, deleteId, found, marked⟩ : ∃ insertId deleteId,
      (table.versions.versions (firstId / morselSize)).infoOf (firstId % morselSize) =
        some (.constant insertId deleteId) ∧ deleteId ≠ notDeletedId := by
    rw [VersionedTable.Clean, ChunkInfo.Clean] at whole
    push Not at whole
    exact whole
  have before : table.versions.deletedId firstId = deleteId := by
    rw [deletedId, MorselInfo.deletedId, found]
    rfl
  have early : deleteId < transactionIdStart := (loaded.constants firstId insertId deleteId found).resolve_right marked
  obtain ⟨result, deletes, outcome⟩ := exactly
  rw [delete_table notLocal present, map_eq_some_iff] at deletes
  obtain ⟨⟨final, error⟩, ran, rfl⟩ := deletes
  rcases outcome with ⟨-, same⟩ | ⟨-, exact⟩
  · have progress := (deleteIds_spec (table.entry_entered firstId) (table.entry_progress transactionId firstId) ran).1
    have after := same.versions firstId
    rw [before, resultOf_deletedId table rfl, progress.deleted _ (entry_clean table firstId),
      entry_deletedId_of_not_clean whole] at after
    split at after
    · omega
    · exact marked after.symm
  · have fresh := exact.fresh firstId mem_cons_self
    rw [isDeleted, if_neg notLocal, before] at fresh
    simp [marked] at fresh

include present in
theorem below_maxRowId (below : table.versions.segmentCount * morselSize ≤ maxRowId)
    (here : id / morselSize = firstId / morselSize) : id < maxRowId := by
  have inSegment : id < table.versions.segmentCount * morselSize := by
    rw [← Nat.div_lt_iff_lt_mul (by decide), here]
    exact present
  exact lt_of_lt_of_le inSegment below

theorem entry_pushedRows (table : DeletableTable) (firstId : Nat) : (table.entry firstId).pushedRows = [] := rfl

theorem relative_cons (firstId : Nat) (rest : List Nat) :
    [firstId % morselSize] ++ rest.map (· - firstId / morselSize * morselSize) =
      (firstId :: rest).map (· - firstId / morselSize * morselSize) := by
  rw [map_cons, sub_start, singleton_append]

theorem map_add_sub {start : Nat} (low : ∀ id ∈ ids, start ≤ id) : (ids.map (· - start)).map (start + ·) = ids := by
  rw [List.map_map]
  refine (map_congr_left ?_).trans (map_id _)
  exact fun id member => Nat.add_sub_cancel' (low id member)

variable {final : VersionDeleteState}

theorem rowNumbers_eq {error : Option String} (inside : ∀ id ∈ firstId :: rest, id / morselSize = firstId / morselSize)
    (pushed : final.pushedRows = [firstId % morselSize] ++ rest.map (· - firstId / morselSize * morselSize)) :
    DeleteInfo.rowNumbers (table.resultOf (firstId / morselSize) final error).pushed = firstId :: rest := by
  rw [rowNumbers_resultOf, pushed, relative_cons]
  exact map_add_sub fun id member => (inside_iff.mpr (inside id member)).1

theorem filter_table_eq (below : ∀ id ∈ ids, id < maxRowId) : ids.dedup.filter (· < maxRowId) = ids.dedup := by
  rw [filter_eq_self]
  intro id member
  simpa using below id (mem_dedup.mp member)

theorem firstRun_relative : [firstId % morselSize] ++ (runOf (firstId / morselSize * morselSize)
        (firstId % morselSize / standardVectorSize) rest).map (· - firstId / morselSize * morselSize) =
      (firstRun (firstId :: rest)).map (· - firstId / morselSize * morselSize) := by
  rw [relative_cons, ← firstRun_cons]

theorem firstRun_inside (member : id ∈ firstRun (firstId :: rest)) : id / morselSize = firstId / morselSize := by
  rw [firstRun_cons] at member
  rcases mem_cons.mp member with same | inRun
  · rw [same]
  · exact inside_iff.mp (runOf_inside inRun)

include clean in
theorem relative_deletable
    (deletable : ∀ id ∈ ids, id / morselSize = firstId / morselSize ∧ table.versions.Deletable id) :
    ∀ row ∈ ids.map (· - firstId / morselSize * morselSize), (table.entry firstId).morsel.Deletable row := by
  intro row member
  obtain ⟨id, given, rfl⟩ := mem_map.mp member
  rw [entry_deletable_iff clean]
  exact (deletable_iff (deletable id given).1).mp (deletable id given).2

include clean notLocal present in
theorem accepts_of_deletesExactly (live : transactionId ≠ notDeletedId)
    (free : ∀ id ∈ firstRun (firstId :: rest), table.versions.Deletable id)
    (below : table.versions.segmentCount * morselSize ≤ maxRowId)
    (exactly : table.DeletesExactly transactionId (firstId :: rest)) :
    (∀ id ∈ firstId :: rest, id / morselSize = firstId / morselSize ∧
      table.versions.Deletable id) ∧ (firstId :: rest).Nodup := by
  obtain ⟨result, deletes, outcome⟩ := exactly
  rw [delete_table notLocal present, map_eq_some_iff] at deletes
  obtain ⟨⟨final, error⟩, ran, rfl⟩ := deletes
  have entered := table.entry_entered firstId
  have started := table.entry_progress transactionId firstId
  obtain ⟨progress, -, whole⟩ := deleteIds_spec entered started ran
  rcases outcome with ⟨-, same⟩ | ⟨noError, exact⟩
  · -- the rows of the first vector are marked by now
    have marked := deleteIds_first entered started (firstRun_relative ▸ relative_deletable clean
      fun id member => ⟨firstRun_inside member, free id member⟩) ran (firstId % morselSize) mem_cons_self
    have after := same.versions firstId
    rw [resultOf_deletedId table rfl, progress.deleted _ (entry_clean table firstId), if_pos marked] at after
    have first := free firstId (by rw [firstRun_cons]; exact mem_cons_self)
    exact absurd (after.trans first.1) live
  · obtain ⟨restInside, pushed, committed⟩ := whole noError
    have inside : ∀ id ∈ firstId :: rest, id / morselSize = firstId / morselSize :=
      forall_mem_cons.mpr ⟨rfl, fun id member => inside_iff.mp (restInside id member)⟩
    refine ⟨fun id member => ⟨inside id member, ?_⟩, ?_⟩
    · have fresh := exact.fresh id member
      rw [isDeleted, if_neg (Nat.not_le_of_lt (below_maxRowId present below (inside id member)))] at fresh
      have free : table.versions.deletedId id = notDeletedId := by simpa using fresh
      refine ⟨free, ?_⟩
      rw [inside id member, ← entry_insertedId]
      refine committed _ ?_
      rw [relative_cons, ← sub_start, inside id member]
      exact mem_map.mpr ⟨id, member, rfl⟩
    · have once := exact.pushed
      rw [rowNumbers_eq inside pushed, filter_table_eq fun id member =>
        below_maxRowId present below (inside id member)] at once
      exact once.nodup_iff.mpr (nodup_dedup _)

include clean notLocal present in
theorem deletesExactly_of_conflict
    (member : id ∈ firstRun (firstId :: rest)) (conflict : ¬table.versions.Deletable id) :
    table.DeletesExactly transactionId (firstId :: rest) := by
  rw [deletable_iff (firstRun_inside member), ← entry_deletable_iff clean] at conflict
  obtain ⟨stopped, message, ran, same⟩ := deleteIds_conflict (table.entry_entered firstId)
    (table.entry_progress transactionId firstId) (firstRun_relative ▸ mem_map.mpr ⟨id, member, rfl⟩) conflict
  refine ⟨table.resultOf (firstId / morselSize) stopped (some message), ?_, .inl ⟨?_, ?_, rfl⟩⟩
  · rw [delete_table notLocal present, ran]
    rfl
  · exact some_ne_none _
  intro row
  rw [resultOf]
  rw [setMorsel_deletedId]
  split
  · next here =>
      rw [same, entry_deletedId clean, deletedId, here]
  · rfl

include clean in
theorem deletedId_final
    (deletable : ∀ id ∈ firstId :: rest, id / morselSize = firstId / morselSize ∧ table.versions.Deletable id)
    (ran : (table.entry firstId).deleteIds transactionId (firstId / morselSize * morselSize) rest =
      some (final, none)) {row : Nat} (here : row / morselSize = firstId / morselSize) :
    final.morsel.deletedId (row % morselSize) =
      if row ∈ firstId :: rest then transactionId else table.versions.deletedId row := by
  have entered := table.entry_entered firstId
  obtain ⟨progress, -, whole⟩ := deleteIds_spec entered (table.entry_progress transactionId firstId) ran
  have pushed : row % morselSize ∈ final.pushedRows ↔ row ∈ firstId :: rest := by
    rw [(whole rfl).2.1, entry_pushedRows, nil_append, relative_cons, ← sub_start, here, List.mem_map]
    constructor
    · rintro ⟨id, given, same⟩
      have low := (inside_iff.mpr here).1
      have idLow := (inside_iff.mpr (deletable id given).1).1
      have equal : id = row := by omega
      exact equal ▸ given
    · exact fun given => ⟨row, given, rfl⟩
  have before : (table.entry firstId).morsel.deletedId (row % morselSize) = table.versions.deletedId row := by
    rw [entry_deletedId clean, deletedId, here]
  by_cases visited : ∃ id ∈ firstId :: rest, (id - firstId / morselSize * morselSize) / standardVectorSize =
        row % morselSize / standardVectorSize
  · obtain ⟨id, given, same⟩ := visited
    have free := (entry_deletable_iff clean _).mpr ((deletable_iff (deletable id given).1).mp (deletable id given).2)
    have vectorClean := clean_of_deletable free
    rw [MorselInfo.infoOf, same] at vectorClean
    rw [progress.deleted _ vectorClean, before]
    simp only [pushed]
  · push Not at visited
    have given : row ∉ firstId :: rest := by
      intro given
      refine visited row given ?_
      rw [← here, sub_start]
    have elsewhere : (table.entry firstId).currentChunk ≠ some (row % morselSize / standardVectorSize) := by
      exact fun same => visited firstId mem_cons_self (some.inj same)
    have kept := deleteIds_frame elsewhere (fun id member => visited id (mem_cons_of_mem _ member)) ran
    rw [if_neg given, ← before, MorselInfo.deletedId, MorselInfo.infoOf, kept]
    rfl

include clean notLocal present in
theorem deletesExactly_of_deletable
    (below : table.versions.segmentCount * morselSize ≤ maxRowId)
    (deletable : ∀ id ∈ firstId :: rest, id / morselSize = firstId / morselSize ∧
      table.versions.Deletable id) (distinct : (firstId :: rest).Nodup) :
    table.DeletesExactly transactionId (firstId :: rest) := by
  have inside : ∀ id ∈ firstId :: rest, id / morselSize = firstId / morselSize :=
    fun id member => (deletable id member).1
  have tableIds : ∀ id ∈ firstId :: rest, id < maxRowId :=
    fun id member => below_maxRowId present below (inside id member)
  have relativeDeletable := relative_deletable clean deletable
  have relativeDistinct : ((firstId :: rest).map (· - firstId / morselSize * morselSize)).Nodup := by
    refine List.Nodup.map_on ?_ distinct
    intro id given other otherGiven same
    have low := (inside_iff.mpr (inside id given)).1
    have otherLow := (inside_iff.mpr (inside other otherGiven)).1
    omega
  rw [← relative_cons] at relativeDeletable relativeDistinct
  have entered := table.entry_entered firstId
  have started := table.entry_progress transactionId firstId
  obtain ⟨final, ran⟩ := deleteIds_succeeds entered started
    (fun id member => inside_iff.mpr (inside id (mem_cons_of_mem _ member)))
    relativeDeletable relativeDistinct
  obtain ⟨progress, -, whole⟩ := deleteIds_spec entered started ran
  have pushed := (whole rfl).2.1
  have rowNumbers : DeleteInfo.rowNumbers (table.resultOf (firstId / morselSize) final none).pushed = firstId :: rest :=
    rowNumbers_eq inside pushed
  refine ⟨table.resultOf (firstId / morselSize) final none, ?_, .inr ⟨rfl, ?_, ?_, ?_, ?_, ?_⟩⟩
  · rw [delete_table notLocal present, ran]
    rfl
  · intro id member
    rw [isDeleted, if_neg (Nat.not_le_of_lt (tableIds id member))]
    have free : table.versions.deletedId id = notDeletedId := (deletable id member).2.1
    simp [free]
  · intro row _
    by_cases here : row / morselSize = firstId / morselSize
    · rw [resultOf_deletedId table here]
      exact deletedId_final clean deletable ran here
    · rw [if_neg fun given => here (inside row given), resultOf]
      rw [setMorsel_deletedId, if_neg here]
  · intro id isLocal
    have other : id ∉ firstId :: rest := fun member => Nat.not_le_of_lt (tableIds id member) isLocal
    rw [decide_eq_false other, Bool.or_false]
    rfl
  · rw [rowNumbers, filter_table_eq tableIds, distinct.dedup]
  · rw [DeleteInfo.cleanupCount_eq, rowNumbers, distinct.dedup, Nat.add_comm]
    rfl

/-- A call of `DataTable::Delete` deletes exactly the given rows, or throws and marks nothing, if
and only if the table accepts the ids. -/
theorem deletesExactly_iff (table : DeletableTable) (transactionId : Nat) (ids : List Nat)
    (loaded : table.Loaded) (started : transactionIdStart ≤ transactionId)
    (live : transactionId ≠ notDeletedId) :
    table.DeletesExactly transactionId ids ↔ table.Accepts ids := by
  cases ids with
  | nil =>
    refine iff_of_true ⟨_, rfl, .inr ⟨rfl, ?_, ?_, ?_, ?_, ?_⟩⟩ trivial
    · simp
    · simp
    · simp
    · exact List.Perm.refl []
    · exact Nat.add_comm ..
  | cons firstId rest =>
    by_cases isLocal : maxRowId ≤ firstId
    · exact deletesExactly_local isLocal
    rw [Accepts, if_neg isLocal]
    by_cases present : firstId / morselSize < table.versions.segmentCount
    · rw [if_pos present]
      constructor
      · intro exactly
        have clean := clean_of_deletesExactly isLocal present loaded started exactly
        refine ⟨clean, ?_⟩
        by_cases conflict : ∃ id ∈ firstRun (firstId :: rest), ¬table.versions.Deletable id
        · exact .inl conflict
        · push Not at conflict
          exact .inr (accepts_of_deletesExactly isLocal present clean live conflict
            loaded.below exactly)
      · rintro ⟨clean, ⟨id, member, conflict⟩ | ⟨deletable, distinct⟩⟩
        · exact deletesExactly_of_conflict isLocal present clean member conflict
        · exact deletesExactly_of_deletable isLocal present clean loaded.below deletable
            distinct
    · rw [if_neg present]
      let thrown : DeleteResult :=
        { table, pushed := [], error := some "Could not find node in column segment tree!" }
      refine iff_of_true ⟨thrown, ?_, .inl ⟨?_, fun _ => rfl, rfl⟩⟩ trivial
      · rw [delete]
        rw [if_neg isLocal, if_neg present]
      · exact some_ne_none _

def twoMorsels : DeletableTable where
  versions :=
    { totalRows := 150000, segmentCount := 2, versions := fun segment => .empty (segment * morselSize) }
  storage := { deletedEntries := fun _ _ => false, deletedRows := 0 }

theorem twoMorsels_loaded : twoMorsels.Loaded where
  below := by decide
  constants := fun _ _ _ found => nomatch found

theorem twoMorsels_accepts : twoMorsels.Accepts [5, 2000, 6] := by
  refine ⟨nofun, .inr ⟨?_, by decide⟩⟩
  have small : ∀ id ∈ [5, 2000, 6], id / morselSize = 5 / morselSize := by decide
  exact fun id member => ⟨small id member, rfl, Nat.zero_lt_succ _⟩

theorem twoMorsels_deletesExactly :
    twoMorsels.DeletesExactly (transactionIdStart + 1) [5, 2000, 6] :=
  (deletesExactly_iff twoMorsels (transactionIdStart + 1) [5, 2000, 6] twoMorsels_loaded
    (Nat.le_succ _) (by decide)).mpr twoMorsels_accepts

/-- A row that is given twice is counted twice, and the second of two morsels is not found. -/
theorem not_deletesExactly :
    ¬twoMorsels.DeletesExactly (transactionIdStart + 1) [5, 5] ∧
      ¬twoMorsels.DeletesExactly (transactionIdStart + 1) [5, 102405] := by
  refine ⟨?_, ?_⟩
  · rintro ⟨result, deletes, outcome⟩
    have pushed : (twoMorsels.delete (transactionIdStart + 1) [5, 5]).map
        (fun result => (result.error, result.pushed, result.table.storage.deletedRows)) =
          some (none, [{ vectorStart := 0, rows := [5, 5] }], 0) := by decide
    rw [deletes, map_some, some.injEq, Prod.mk.injEq, Prod.mk.injEq] at pushed
    obtain ⟨noError, pushed, storage⟩ := pushed
    rcases outcome with ⟨thrown, -⟩ | ⟨-, exact⟩
    · exact thrown noError
    · have counted := exact.counted
      rw [pushed, storage] at counted
      exact absurd counted (by decide)
  · rintro ⟨result, deletes, -⟩
    have none : (twoMorsels.delete (transactionIdStart + 1) [5, 102405]).isSome = false := by decide
    rw [deletes] at none
    exact nomatch none

end DeletableTable

end GuinsooDB
