import GuinsooDB.Version.Checkpoint
import GuinsooDB.Version.Marks

/-!
The ledger of a table that kept running beside the ledger of the same table after a restart.
The restarted transaction manager counts anew, so timestamps and transaction ids are shifted.
-/

namespace GuinsooDB

open Transition Function RowVersion TransactionManager List

/-- The counters at the checkpoint and after the restart. The loading transaction has run by
then. -/
structure Restart where
  time : Nat
  transactionId : Nat
  newTime : Nat
  newTransactionId : Nat
  started : 0 < newTime
  earlier : newTime ≤ time
  room : time < transactionIdStart
  above : transactionIdStart ≤ transactionId
  newAbove : transactionIdStart ≤ newTransactionId

namespace Restart

variable (restart : Restart)

def newTimeOf (time : Nat) : Nat := time - restart.time + restart.newTime

def newIdOf (id : Nat) : Nat :=
  if restart.transactionId ≤ id then id - restart.transactionId + restart.newTransactionId else 0

def transaction (old : Transaction) : Transaction :=
  { old with
    startTime := restart.newTimeOf old.startTime
    transactionId := restart.newIdOf old.transactionId }

def action : VersionAction → VersionAction
  | .start => .start
  | .append transactionId count constraintViolated =>
    .append (restart.newIdOf transactionId) count constraintViolated
  | .delete transactionId segment rowIds => .delete (restart.newIdOf transactionId) segment rowIds
  | .commit transactionId failure => .commit (restart.newIdOf transactionId) failure
  | .rollback transactionId => .rollback (restart.newIdOf transactionId)

def SameId (id newId : Nat) : Prop :=
  restart.time ≤ id ∧ id < transactionIdStart ∧ newId = restart.newTimeOf id ∨
    restart.transactionId ≤ id ∧ id < notDeletedId ∧ newId < notDeletedId ∧
      newId = restart.newIdOf id

def SameInserted (id newId : Nat) : Prop :=
  id < restart.time ∧ newId = 0 ∨ restart.SameId id newId

def SameDeleted (id newId : Nat) : Prop :=
  id = notDeletedId ∧ newId = notDeletedId ∨ restart.SameId id newId

def Dead (version newVersion : RowVersion) : Prop :=
  newVersion = { inserted := 0, deleted := 0 } ∧ (version.deleted < restart.time ∨
      transactionIdStart ≤ version.inserted ∧ version.inserted < restart.transactionId)

def Live (version newVersion : RowVersion) : Prop :=
  restart.SameInserted version.inserted newVersion.inserted ∧
    restart.SameDeleted version.deleted newVersion.deleted

def Alike (version newVersion : RowVersion) : Prop :=
  restart.Live version newVersion ∨ restart.Dead version newVersion

structure Later (transaction : Transaction) : Prop where
  started : restart.time ≤ transaction.startTime
  early : transaction.startTime < transactionIdStart
  id : restart.transactionId ≤ transaction.transactionId
  small : transaction.transactionId < notDeletedId
  newSmall : restart.newIdOf transaction.transactionId < notDeletedId

variable {restart}

variable {id : Nat}

theorem newIdOf_of_le (after : restart.transactionId ≤ id) :
    restart.newIdOf id = id - restart.transactionId + restart.newTransactionId :=
  if_pos after

theorem newIdOf_inj {other : Nat} (after : restart.transactionId ≤ id) :
    restart.newIdOf other = restart.newIdOf id ↔ other = id := by
  have above := restart.newAbove
  have positive : 0 < transactionIdStart := by decide
  unfold newIdOf
  split <;> omega

def Uses (transaction : Transaction) (id : Nat) : Prop :=
  id < transaction.startTime ∨ id = transaction.transactionId

variable {newId : Nat}

section

variable {transaction : Transaction} (later : restart.Later transaction)
include later

theorem SameId.use_iff (same : restart.SameId id newId) :
    Uses transaction id ↔ Uses (restart.transaction transaction) newId := by
  obtain ⟨started, early, idAfter, _, _⟩ := later
  have earlier := restart.earlier
  have above := restart.above
  have newAbove := restart.newAbove
  simp only [Uses, Restart.transaction, newTimeOf, newIdOf_of_le idAfter]
  rcases same with ⟨low, high, rfl⟩ | ⟨low, _, _, rfl⟩
  · simp only [newTimeOf]
    omega
  · rw [newIdOf_of_le low]
    omega

theorem SameInserted.use_iff (same : restart.SameInserted id newId) :
    Uses transaction id ↔ Uses (restart.transaction transaction) newId := by
  rcases same with ⟨old, rfl⟩ | same
  · have after := later.started
    have started := restart.started
    simp only [Uses, Restart.transaction, newTimeOf]
    omega
  · exact same.use_iff later

theorem SameDeleted.use_iff (same : restart.SameDeleted id newId) :
    Uses transaction id ↔ Uses (restart.transaction transaction) newId := by
  rcases same with ⟨rfl, rfl⟩ | same
  · obtain ⟨started, early, _, small, newSmall⟩ := later
    have earlier := restart.earlier
    have bound : transactionIdStart < notDeletedId := by decide
    simp only [Uses, Restart.transaction, newTimeOf]
    omega
  · exact same.use_iff later

end

variable {newVersion version : RowVersion} {transaction : Transaction}

theorem Alike.visible (later : restart.Later transaction) (alike : restart.Alike version newVersion) :
    version.visible transaction = newVersion.visible (restart.transaction transaction) := by
  rw [Bool.eq_iff_iff, visible_iff, visible_iff]
  rcases alike with ⟨inserted, deleted⟩ | ⟨rfl, gone⟩
  · exact and_congr (inserted.use_iff later) (not_congr (deleted.use_iff later))
  · obtain ⟨started, early, idAfter, _, _⟩ := later
    simp only [Restart.transaction, newTimeOf]
    omega

theorem Alike.live (alike : restart.Alike version newVersion) (kept : restart.time ≤ version.deleted)
    (inserted : version.inserted < transactionIdStart ∨ restart.transactionId ≤ version.inserted) :
    restart.Live version newVersion := by
  rcases alike with live | ⟨_, gone⟩
  · exact live
  · omega

variable (live : restart.Live version newVersion)

include live in
theorem Live.deletable : version.deletable = newVersion.deletable := by
  obtain ⟨inserted, deleted⟩ := live
  have earlier := restart.earlier
  have room := restart.room
  have above := restart.above
  have newAbove := restart.newAbove
  have bound : transactionIdStart < notDeletedId := by decide
  have sameDeleted : version.deleted = notDeletedId ↔ newVersion.deleted = notDeletedId := by
    rcases deleted with kept | ⟨low, high, new⟩ | ⟨low, high, newHigh, new⟩
    · exact ⟨fun _ => kept.2, fun _ => kept.1⟩
    · rw [new, newTimeOf]
      omega
    · omega
  have sameInserted : version.inserted < transactionIdStart ↔ newVersion.inserted < transactionIdStart := by
    rcases inserted with ⟨old, zero⟩ | ⟨low, high, new⟩ | ⟨low, high, newHigh, new⟩
    · omega
    · rw [new, newTimeOf]
      omega
    · rw [new, newIdOf_of_le low]
      omega
  rw [Bool.eq_iff_iff, deletable_iff, deletable_iff, sameDeleted, sameInserted]

include live in
theorem Live.deleted_ne_zero : newVersion.deleted ≠ 0 := by
  have started := restart.started
  have newAbove := restart.newAbove
  have positive : 0 < transactionIdStart := by decide
  rcases live.2 with ⟨_, kept⟩ | ⟨_, _, committed⟩ | ⟨after, _, _, marked⟩
  · rw [kept]
    decide
  · rw [committed, newTimeOf]
    omega
  · rw [marked, newIdOf_of_le after]
    omega

theorem Later.sameId (later : restart.Later transaction) :
    restart.SameId transaction.transactionId (restart.newIdOf transaction.transactionId) :=
  .inr ⟨later.id, later.small, later.newSmall, rfl⟩

/-! Ledgers of the two tables -/

structure Mirrors (restart : Restart) (ledger twin : VersionLedger) : Prop where
  time : twin.manager.currentStartTimestamp = restart.newTimeOf ledger.manager.currentStartTimestamp
  since : restart.time ≤ ledger.manager.currentStartTimestamp
  ids : twin.manager.currentTransactionId = restart.newIdOf ledger.manager.currentTransactionId
  idsSince : restart.transactionId ≤ ledger.manager.currentTransactionId
  active : twin.manager.activeTransactions =
    ledger.manager.activeTransactions.map restart.transaction
  later : ∀ transaction ∈ ledger.manager.activeTransactions, restart.Later transaction
  total : twin.totalRows = ledger.totalRows
  undo : ∀ id, restart.transactionId ≤ id → twin.undo (restart.newIdOf id) = ledger.undo id
  idle : twin.undo 0 = []
  rows : ∀ row < ledger.totalRows, restart.Alike (ledger.recorded row) (twin.recorded row)

namespace Mirrors

variable {ledger twin : VersionLedger} {old : Transaction}

theorem find (mirrors : Mirrors restart ledger twin) (id : Nat) : twin.manager.find (restart.newIdOf id) =
      (ledger.manager.find id).map restart.transaction := by
  unfold TransactionManager.find
  rw [mirrors.active, find?_map, ← head?_filter, ← head?_filter]
  congr 2
  apply filter_congr
  intro old member
  have after := (mirrors.later old member).id
  simp only [comp_apply, decide_eq_decide]
  constructor
  · intro same
    exact ((newIdOf_inj after).mp same.symm).symm
  · intro same
    rw [← same]
    rfl

theorem others (mirrors : Mirrors restart ledger twin) (member : old ∈ ledger.manager.activeTransactions) :
    twin.manager.others (restart.transaction old) = (ledger.manager.others old).map restart.transaction := by
  unfold TransactionManager.others
  rw [mirrors.active, filter_map]
  congr 1
  apply filter_congr
  intro other otherMember
  have after := (mirrors.later old member).id
  simp only [comp_apply, decide_eq_decide, ne_eq]
  exact not_congr (newIdOf_inj after)

theorem newTimeOf_succ {time : Nat} (since : restart.time ≤ time) :
    restart.newTimeOf (time + 1) = restart.newTimeOf time + 1 := by
  unfold newTimeOf
  omega

theorem newIdOf_succ {id : Nat} (since : restart.transactionId ≤ id) :
    restart.newIdOf (id + 1) = restart.newIdOf id + 1 := by
  rw [newIdOf_of_le since, newIdOf_of_le (by omega)]
  omega

theorem newIdOf_pos {id : Nat} (since : restart.transactionId ≤ id) : 0 < restart.newIdOf id := by
  have above := restart.newAbove
  have positive : 0 < transactionIdStart := by decide
  rw [newIdOf_of_le since]
  omega

section

variable (mirrors : Mirrors restart ledger twin)
include mirrors

theorem start {manager newManager : TransactionManager} {fresh newFresh : Transaction}
    (started : ledger.manager.startTransaction = .ok (manager, fresh))
    (newStarted : twin.manager.startTransaction = .ok (newManager, newFresh))
    (small : ledger.manager.currentTransactionId < notDeletedId)
    (newSmall : twin.manager.currentTransactionId < notDeletedId) :
    Mirrors restart { ledger with manager } { twin with manager := newManager } := by
  obtain ⟨room, startEq, idEq, nextStart, nextId, nextActive, _, _⟩ := startTransaction_eq started
  obtain ⟨_, newStartEq, newIdEq, newNextStart, newNextId, newNextActive, _, _⟩ := startTransaction_eq newStarted
  have since := mirrors.since
  have idsSince := mirrors.idsSince
  have later : restart.Later fresh := by
    refine ⟨by omega, by omega, by omega, by omega, ?_⟩
    rw [idEq, ← mirrors.ids]
    exact newSmall
  have counterpart : newFresh = restart.transaction fresh := by
    simp only [startTransaction] at started newStarted
    split at started
    · cases started
    split at newStarted
    · cases newStarted
    · cases started
      cases newStarted
      simp only [Restart.transaction, mirrors.time, mirrors.ids]
  exact { mirrors with
    time := by rw [newNextStart, nextStart, newTimeOf_succ since, mirrors.time]
    since := by rw [nextStart]; omega
    ids := by rw [newNextId, nextId, newIdOf_succ idsSince, mirrors.ids]
    idsSince := by rw [nextId]; omega
    active := by
      rw [newNextActive, nextActive, mirrors.active, map_append, counterpart]
      rfl
    later := by
      intro other member
      rw [nextActive, mem_append, mem_singleton] at member
      rcases member with before | new
      · exact mirrors.later other before
      · exact new ▸ later }

theorem push (member : old ∈ ledger.manager.activeTransactions) (entries : List VersionEntry) :
    (∀ id, restart.transactionId ≤ id →
      (twin.push (restart.newIdOf old.transactionId) entries).undo (restart.newIdOf id) =
        (ledger.push old.transactionId entries).undo id) ∧
      (twin.push (restart.newIdOf old.transactionId) entries).undo 0 = [] := by
  have after := (mirrors.later old member).id
  simp only [VersionLedger.push, mirrors.undo _ after]
  refine ⟨?_, ?_⟩
  · intro id since
    by_cases same : id = old.transactionId
    · rw [same, update_self, update_self]
    · rw [update_of_ne same, update_of_ne, mirrors.undo id since]
      exact fun equal => same ((newIdOf_inj after).mp equal)
  · rw [update_of_ne (ne_of_lt (newIdOf_pos after))]
    exact mirrors.idle

theorem drawn : Mirrors restart { ledger with manager := ledger.manager.drawCommitId.1 }
      { twin with manager := twin.manager.drawCommitId.1 } :=
  { mirrors with
    time := (congrArg (· + 1) mirrors.time).trans (newTimeOf_succ mirrors.since).symm
    since := Nat.le_succ_of_le mirrors.since }

theorem removeTransaction (member : old ∈ ledger.manager.activeTransactions) (commitId newCommitId : Nat) :
    Mirrors restart (ledger.removeTransaction { old with commitId })
      (twin.removeTransaction { restart.transaction old with commitId := newCommitId }) := by
  obtain ⟨time, ids⟩ := ledger.manager.removeTransaction_timestamps { old with commitId }
  obtain ⟨newTime, newIds⟩ := twin.manager.removeTransaction_timestamps
    { restart.transaction old with commitId := newCommitId }
  have active := ledger.manager.removeTransaction_active { old with commitId }
  exact { mirrors with
    time := newTime.trans (mirrors.time.trans (congrArg _ time.symm))
    since := le_trans mirrors.since (le_of_eq time.symm)
    ids := newIds.trans (mirrors.ids.trans (congrArg _ ids.symm))
    idsSince := le_trans mirrors.idsSince (le_of_eq ids.symm)
    active := (twin.manager.removeTransaction_active _).trans
      ((mirrors.others member).trans (congrArg _ active.symm))
    later := fun other stays => mirrors.later other (mem_others.mp (active ▸ stays)).1 }

end

end Mirrors

/-! Entries that are committed or reverted on both sides -/

def AlikeAround (restart : Restart) (entries : List VersionEntry) (recorded twin : RowVersions)
    (row : Nat) : Prop :=
  restart.Alike (recorded row) (twin row) ∧
    (Mine entries row ∨ Hit entries row → restart.Live (recorded row) (twin row))

include live in
theorem Live.replace {next newNext : RowVersion}
    (inserted : next.inserted = version.inserted ∧ newNext.inserted = newVersion.inserted ∨
      restart.SameInserted next.inserted newNext.inserted)
    (deleted : next.deleted = version.deleted ∧ newNext.deleted = newVersion.deleted ∨
      restart.SameDeleted next.deleted newNext.deleted) : restart.Live next newNext := by
  refine ⟨?_, ?_⟩
  · rcases inserted with ⟨same, newSame⟩ | new
    · rw [same, newSame]
      exact live.1
    · exact new
  · rcases deleted with ⟨same, newSame⟩ | new
    · rw [same, newSame]
      exact live.2
    · exact new

variable {row : Nat} {recorded twin : RowVersions} {entries : List VersionEntry}

variable (alike : restart.AlikeAround entries recorded twin row)

include alike in
theorem AlikeAround.change {next nextTwin : RowVersions}
    (inserted : (next row).inserted = (recorded row).inserted ∧ (nextTwin row).inserted = (twin row).inserted ∨
      Mine entries row ∧ restart.SameInserted (next row).inserted (nextTwin row).inserted)
    (deleted : (next row).deleted = (recorded row).deleted ∧ (nextTwin row).deleted = (twin row).deleted ∨
      Hit entries row ∧ restart.SameDeleted (next row).deleted (nextTwin row).deleted) :
    restart.AlikeAround entries next nextTwin row := by
  by_cases named : Mine entries row ∨ Hit entries row
  · have live := (alike.2 named).replace (inserted.imp_right And.right) (deleted.imp_right And.right)
    exact ⟨.inl live, fun _ => live⟩
  obtain ⟨sameInserted, newInserted⟩ := inserted.resolve_right fun changed =>
    named (.inl changed.1)
  obtain ⟨sameDeleted, newDeleted⟩ := deleted.resolve_right fun changed =>
    named (.inr changed.1)
  refine ⟨?_, fun now => absurd now named⟩
  rw [eq_of_fields sameInserted sameDeleted, eq_of_fields newInserted newDeleted]
  exact alike.1

variable {list : List VersionEntry}

include alike in
theorem AlikeAround.commitEntries {commitId : Nat}
    (subset : ∀ entry ∈ list, entry ∈ entries) (since : restart.time ≤ commitId)
    (room : commitId < transactionIdStart) :
    restart.AlikeAround entries (list.foldl (RowVersions.commitEntry commitId) recorded)
      (list.foldl (RowVersions.commitEntry (restart.newTimeOf commitId)) twin) row := by
  have same : restart.SameId commitId (restart.newTimeOf commitId) := .inl ⟨since, room, rfl⟩
  have rows := Departing.foldl_commitEntry_inserted list commitId row recorded
  have newRows := Departing.foldl_commitEntry_inserted list (restart.newTimeOf commitId) row twin
  have marks := RowVersions.foldl_commitEntry_deleted list commitId recorded row
  have newMarks := RowVersions.foldl_commitEntry_deleted list (restart.newTimeOf commitId) twin row
  apply alike.change
  · by_cases mine : Mine list row
    · refine .inr ⟨Mine.of_subset subset mine, ?_⟩
      rw [rows.1 mine, newRows.1 mine]
      exact .inr same
    · exact .inl ⟨rows.2 mine, newRows.2 mine⟩
  by_cases hit : Hit list row
  · refine .inr ⟨Hit.of_subset subset hit, ?_⟩
    rw [marks.1 hit, newMarks.1 hit]
    exact .inr same
  · exact .inl ⟨marks.2 hit, newMarks.2 hit⟩

include alike in
theorem AlikeAround.revertEntries {deleteId newDeleteId : Nat}
    (subset : ∀ entry ∈ list, entry ∈ entries) (same : restart.SameDeleted deleteId newDeleteId) :
    restart.AlikeAround entries (list.foldl (RowVersions.revertEntry deleteId) recorded)
      (list.foldl (RowVersions.revertEntry newDeleteId) twin) row := by
  have marks := RowVersions.foldl_revertEntry_deleted list deleteId recorded row
  have newMarks := RowVersions.foldl_revertEntry_deleted list newDeleteId twin row
  apply alike.change
  · exact .inl ⟨RowVersions.foldl_revertEntry_inserted .., RowVersions.foldl_revertEntry_inserted ..⟩
  by_cases hit : Hit list row
  · refine .inr ⟨Hit.of_subset subset hit, ?_⟩
    rw [marks.1 hit, newMarks.1 hit]
    exact same
  · exact .inl ⟨marks.2 hit, newMarks.2 hit⟩

namespace Mirrors

variable {ledger twin : VersionLedger} {old : Transaction}

structure Knows (ledger : VersionLedger) (old : Transaction) : Prop where
  mine : ∀ row, Mine (ledger.undo old.transactionId) row →
    ledger.recorded row = { inserted := old.transactionId, deleted := notDeletedId }
  hit : ∀ row, Hit (ledger.undo old.transactionId) row →
    (ledger.recorded row).deleted = old.transactionId ∧
      (ledger.recorded row).inserted < transactionIdStart

section

variable (mirrors : Mirrors restart ledger twin) (member : old ∈ ledger.manager.activeTransactions)
include mirrors member

theorem alikeAround (knows : Knows ledger old) {row : Nat} (inside : row < ledger.totalRows) :
    restart.AlikeAround (ledger.undo old.transactionId) ledger.recorded twin.recorded row := by
  have alike := mirrors.rows row inside
  have after := (mirrors.later old member).id
  have room := restart.room
  have above := restart.above
  refine ⟨alike, ?_⟩
  rintro (mine | hit)
  · have bound : transactionIdStart < notDeletedId := by decide
    apply alike.live <;> rw [knows.mine row mine]
    · exact le_of_lt (lt_trans room bound)
    · exact .inr after
  · obtain ⟨deleted, inserted⟩ := knows.hit row hit
    exact alike.live (by omega) (.inl inserted)

theorem rollback (knows : Knows ledger old) :
    Mirrors restart (ledger.rollback old) (twin.rollback (restart.transaction old)) := by
  have entries : twin.undo (restart.transaction old).transactionId = _ := mirrors.undo _ (mirrors.later old member).id
  have bound := Accountable.foldl_revertTotal_le (ledger.undo old.transactionId).reverse ledger.totalRows
  rw [VersionLedger.rollback, VersionLedger.rollback, entries]
  refine removeTransaction ?_ (by exact member) _ _
  refine { mirrors with total := ?_, rows := fun row inside => ?_ }
  · simp only [VersionLedger.revertEntries, mirrors.total]
  · have around := mirrors.alikeAround member knows (lt_of_lt_of_le inside bound)
    exact (around.revertEntries (fun entry listed => mem_reverse.mp listed) (.inl ⟨rfl, rfl⟩)).1

theorem commit (knows : Knows ledger old) (room : ledger.manager.currentStartTimestamp < transactionIdStart)
    (failure : Option (Nat × Nat)) : Mirrors restart (ledger.commit old failure)
      (twin.commit (restart.transaction old) failure) := by
  have entries : twin.undo (restart.transaction old).transactionId = _ := mirrors.undo _ (mirrors.later old member).id
  have around (row : Nat) (inside : row < ledger.totalRows) (list : List VersionEntry)
      (subset : ∀ entry ∈ list, entry ∈ ledger.undo old.transactionId) :=
    (mirrors.alikeAround member knows inside).commitEntries subset mirrors.since room
  rw [← mirrors.time] at around
  cases failure with
  | none =>
    simp only [VersionLedger.commit, entries]
    refine removeTransaction ?_ (by exact member) _ _
    refine { mirrors.drawn with rows := fun row inside => ?_ }
    exact (around row inside _ fun entry listed => listed).1
  | some outcome =>
    obtain ⟨committed, reverted⟩ := outcome
    have bound : (ledger.commit old (some (committed, reverted))).totalRows ≤ ledger.totalRows :=
      le_trans (Accountable.foldl_revertTotal_le _ _) (Accountable.foldl_revertTotal_le _ _)
    simp only [VersionLedger.commit, entries]
    refine removeTransaction ?_ (by exact member) _ _
    refine { mirrors.drawn with total := ?_, rows := fun row inside => ?_ }
    · simp only [VersionLedger.revertEntries, VersionLedger.commitEntries, mirrors.total]
    have first := around row (lt_of_lt_of_le inside bound) _
      fun entry (listed : entry ∈ (ledger.undo old.transactionId).take committed) =>
        mem_of_mem_take listed
    have second := first.revertEntries (fun entry (listed : entry ∈ (ledger.undo old.transactionId).take reverted) =>
        mem_of_mem_take listed) (.inr (mirrors.later old member).sameId)
    exact (second.revertEntries (fun entry listed => mem_reverse.mp listed) (.inl ⟨rfl, rfl⟩)).1

theorem append (count : Nat) (constraintViolated : Bool) :
    Mirrors restart (ledger.append old.transactionId count constraintViolated)
      (twin.append (restart.newIdOf old.transactionId) count constraintViolated) := by
  have later := mirrors.later old member
  unfold VersionLedger.append
  split
  · exact mirrors
  rw [mirrors.total]
  have rows (total row : Nat) (inside : row < total) (within : total ≤ ledger.totalRows + count) :
      restart.Alike (ledger.recorded.insert ledger.totalRows count old.transactionId row)
        (twin.recorded.insert ledger.totalRows count (restart.newIdOf old.transactionId) row) := by
    unfold RowVersions.insert
    by_cases new : ledger.totalRows ≤ row ∧ row < ledger.totalRows + count
    · rw [if_pos new, if_pos new]
      exact .inl ⟨.inr later.sameId, .inl ⟨rfl, rfl⟩⟩
    · rw [if_neg new, if_neg new]
      exact mirrors.rows row (by omega)
  cases constraintViolated with
  | true =>
    exact { mirrors with
      total := rfl
      rows := fun row inside => rows ledger.totalRows row inside (Nat.le_add_right _ _) }
  | false =>
    obtain ⟨undo, idle⟩ := mirrors.push member [.append ledger.totalRows count]
    exact { mirrors with
      total := rfl
      undo := undo
      idle := idle
      rows := fun row inside => rows _ row inside (le_refl _) }

end

theorem deleteGroups {recorded newRecorded : RowVersions} {id newId : Nat}
    (same : restart.SameId id newId) {groups : List (Nat × List Nat)}
    (live : ∀ group ∈ groups, ∀ row ∈ group.2,
      restart.Live (rowsOf recorded group.1 row) (rowsOf newRecorded group.1 row)) :
    recorded.deleteGroups id groups = newRecorded.deleteGroups newId groups := by
  induction groups generalizing recorded newRecorded with
  | nil => rfl
  | cons group rest ih =>
    have deletable : (∀ row ∈ group.2, (rowsOf recorded group.1 row).deletable) ↔
        ∀ row ∈ group.2, (rowsOf newRecorded group.1 row).deletable := by
      constructor
      · intro can row inside
        rw [← (live group mem_cons_self row inside).deletable]
        exact can row inside
      · intro can row inside
        rw [(live group mem_cons_self row inside).deletable]
        exact can row inside
    rw [RowVersions.deleteGroups, RowVersions.deleteGroups]
    by_cases can : ∀ row ∈ group.2, (rowsOf recorded group.1 row).deletable
    · rw [if_pos can, if_pos (deletable.mp can)]
      congr 1
      apply ih
      intro other later row inside
      have before := live other (mem_cons_of_mem _ later) row inside
      unfold rowsOf at before ⊢
      unfold RowVersions.delete
      split
      · exact ⟨before.1, .inr same⟩
      · exact before
    · rw [if_neg can, if_neg fun newCan => can (deletable.mpr newCan)]

/-- The rows that a transaction deletes are ones that it has scanned. -/
def Scanned (recorded : RowVersions) (transaction : Transaction) (segment : Nat)
    (rowIds : List Nat) : Prop :=
  ∀ rowId ∈ rowIds, useVersion transaction.startTime transaction.transactionId
        (recorded (segment * morselSize + rowId)).inserted = true ∧
      transaction.startTime ≤ (recorded (segment * morselSize + rowId)).deleted

theorem live_of_scanned (mirrors : Mirrors restart ledger twin)
    (member : old ∈ ledger.manager.activeTransactions) {segment rowId : Nat}
    (present : segment * morselSize + rowId < ledger.totalRows)
    (scanned : Scanned ledger.recorded old segment [rowId]) :
    restart.Live (ledger.recorded (segment * morselSize + rowId)) (twin.recorded (segment * morselSize + rowId)) := by
  obtain ⟨started, early, after, _, _⟩ := mirrors.later old member
  obtain ⟨visible, kept⟩ := scanned rowId mem_cons_self
  apply (mirrors.rows _ present).live
  · omega
  · simp only [useVersion, Bool.or_eq_true, decide_eq_true_eq, beq_iff_eq] at visible
    omega

theorem delete (mirrors : Mirrors restart ledger twin)
    (member : old ∈ ledger.manager.activeTransactions) {segment : Nat} {rowIds : List Nat}
    (present : ∀ rowId ∈ rowIds, segment * morselSize + rowId < ledger.totalRows)
    (scanned : Scanned ledger.recorded old segment rowIds) :
    Mirrors restart (ledger.delete old.transactionId segment rowIds)
      (twin.delete (restart.newIdOf old.transactionId) segment rowIds) := by
  have later := mirrors.later old member
  have same : ledger.recorded.deleteGroups old.transactionId (inTable segment (groupsOf rowIds)) =
      twin.recorded.deleteGroups (restart.newIdOf old.transactionId) (inTable segment (groupsOf rowIds)) := by
    apply deleteGroups later.sameId
    intro group listed row inside
    obtain ⟨⟨vector, rows⟩, grouped, rfl⟩ := mem_map.mp listed
    obtain ⟨rowId, given, place, offset⟩ := mem_groupsOf grouped inside
    have position : (segment * morselVectorCount + vector) * standardVectorSize + row =
        segment * morselSize + rowId := by
      subst vector row
      simp only [morselSize, morselVectorCount, standardVectorSize]
      omega
    unfold rowsOf
    rw [position]
    exact mirrors.live_of_scanned member (present rowId given) fun other listed =>
      scanned other (mem_singleton.mp listed ▸ given)
  unfold VersionLedger.delete
  dsimp only
  rw [← same]
  have hits (row : Nat) := @RowVersions.deletable_of_hit old.transactionId row
    (inTable segment (groupsOf rowIds)) ledger.recorded
  generalize ledger.recorded.deleteGroups old.transactionId (inTable segment (groupsOf rowIds)) = groups at hits
  obtain ⟨undo, idle⟩ := mirrors.push member (groups.map fun group => VersionEntry.delete group.1 group.2)
  refine { mirrors with undo := undo, idle := idle, rows := ?_ }
  intro row inside
  rw [RowVersions.markGroups_eq, RowVersions.markGroups_eq]
  have alike := mirrors.rows row inside
  have around : restart.AlikeAround (groups.map fun group => VersionEntry.delete group.1 group.2) ledger.recorded
      twin.recorded row := by
    refine ⟨alike, ?_⟩
    rintro (⟨start, count, appended, _⟩ | hit)
    · simp at appended
    · obtain ⟨kept, committed⟩ := deletable_iff.mp (hits row hit)
      have room := restart.room
      have bound : transactionIdStart < notDeletedId := by decide
      exact alike.live (by omega) (.inl committed)
  exact (around.revertEntries (fun _ listed => listed) (.inr later.sameId)).1

theorem step (mirrors : Mirrors restart ledger twin) (room : ledger.manager.currentStartTimestamp < transactionIdStart)
    (small : ledger.manager.currentTransactionId < notDeletedId)
    (newSmall : twin.manager.currentTransactionId < notDeletedId)
    (knows : ∀ old ∈ ledger.manager.activeTransactions, Knows ledger old) {action : VersionAction}
    (scanned : ∀ old ∈ ledger.manager.activeTransactions, ∀ segment rowIds,
      action = .delete old.transactionId segment rowIds →
      (∀ rowId ∈ rowIds, segment * morselSize + rowId < ledger.totalRows) ∧
        Scanned ledger.recorded old segment rowIds) :
    Mirrors restart (ledger.step action) (twin.step (restart.action action)) := by
  have earlier := restart.earlier
  have since := mirrors.since
  cases action with
  | start =>
    have newRoom : twin.manager.currentStartTimestamp < transactionIdStart := by
      rw [mirrors.time, newTimeOf]
      omega
    obtain ⟨⟨manager, fresh⟩, started⟩ : ∃ result, ledger.manager.startTransaction = .ok result :=
      ⟨_, if_neg (not_le.mpr room)⟩
    obtain ⟨⟨newManager, newFresh⟩, newStarted⟩ : ∃ result, twin.manager.startTransaction = .ok result :=
      ⟨_, if_neg (not_le.mpr newRoom)⟩
    simp only [VersionLedger.step, Restart.action, started, newStarted]
    exact mirrors.start started newStarted small newSmall
  | append transactionId count constraintViolated =>
    simp only [VersionLedger.step, Restart.action, mirrors.find transactionId]
    exact ledger.manager.find_cases transactionId mirrors fun _ member _ =>
      mirrors.append member count constraintViolated
  | delete transactionId segment rowIds =>
    simp only [VersionLedger.step, Restart.action, mirrors.find transactionId]
    refine ledger.manager.find_cases transactionId mirrors fun old member same => ?_
    obtain ⟨present, seen⟩ := scanned old member segment rowIds (same ▸ rfl)
    exact mirrors.delete member present seen
  | commit transactionId failure =>
    simp only [VersionLedger.step, Restart.action, mirrors.find transactionId]
    exact ledger.manager.find_cases transactionId mirrors fun old member _ =>
      mirrors.commit member (knows old member) room failure
  | rollback transactionId =>
    simp only [VersionLedger.step, Restart.action, mirrors.find transactionId]
    exact ledger.manager.find_cases transactionId mirrors fun old member _ =>
      mirrors.rollback member (knows old member)

end Mirrors

end Restart

end GuinsooDB
